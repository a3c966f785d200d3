import FudanOS.Fs.BlockOwnership

/-!
# The bytes of a file

The bytes of a file are those of its blocks, in the order of their slots.  An
operation on one inode leaves the entries and the blocks of the other inodes
alone, so it leaves their bytes alone.
-/

namespace FudanOS.Fs.FileContents

open FudanOS.Fs.Defines
open FudanOS.Fs.BlockBitmap
open FudanOS.Fs.InodeLayout
open FudanOS.Fs.BlockOwnership

/-- The byte in a slot of an inode; a slot which stores no block reads 0. -/
def slotByte (view : View) (inodeNo : Nat) (slot : Slot) (index : Nat) :
    UInt8 :=
  if stored view inodeNo slot = 0 then
    0
  else
    byteAt (view.data (stored view inodeNo slot)) index

/-- The byte of a file at a position. -/
def fileByte (view : View) (inodeNo position : Nat) : UInt8 :=
  match slotOf (position / blockSize) with
  | some slot => slotByte view inodeNo slot (position % blockSize)
  | none => 0

/-- `entry->num_bytes` -/
def fileSize (view : View) (inodeNo : Nat) : Nat :=
  (view.entry inodeNo).numBytes.toNat

/-- The file as an array of bytes. -/
def contents (view : View) (inodeNo : Nat) : List UInt8 :=
  (List.range (fileSize view inodeNo)).map (fileByte view inodeNo)

/-- The block of a file with this index is there. -/
def HasBlock (view : View) (inodeNo index : Nat) : Prop :=
  ∃ slot, slotOf index = some slot ∧ stored view inodeNo slot ≠ 0

/-- Every block below the rounded-up size of each inode is there. -/
def Complete (sblock : SuperBlock) (view : View) : Prop :=
  ∀ inodeNo, Allocated sblock view inodeNo →
    ∀ index, index * blockSize < fileSize view inodeNo →
      HasBlock view inodeNo index

/-- Bytes replace those of a file from a position on. -/
def splice (file : List UInt8) (offset : Nat) (src : List UInt8) :
    List UInt8 :=
  file.take offset ++ src ++ file.drop (offset + src.length)

variable
    {sblock : SuperBlock}
    {start finish : View}
    {inodeNo : Nat}

theorem length_contents :
    (contents start inodeNo).length = fileSize start inodeNo := by
  simp [contents]

theorem contents_getElem
    {position : Nat}
    (inside : position < fileSize start inodeNo) :
    (contents start inodeNo)[position]? =
      some (fileByte start inodeNo position) := by
  simp [contents, inside]

/-! ## What an operation on one inode leaves alone -/

/-- The other inodes keep their entries and the contents of their blocks. -/
structure Apart
    (sblock : SuperBlock)
    (inodeNo : Nat)
    (start finish : View) : Prop where
  entry : ∀ other, other ≠ inodeNo → finish.entry other = start.entry other
  data :
    ∀ other, other ≠ inodeNo → Allocated sblock start other →
      ∀ place, stored start other place ≠ 0 →
        finish.data (stored start other place) =
          start.data (stored start other place)

namespace Apart

theorem refl :
    Apart sblock inodeNo start start := by
  exact ⟨fun _ _ => rfl, fun _ _ _ _ _ => rfl⟩

theorem allocated_iff
    (apart : Apart sblock inodeNo start finish)
    {other : Nat}
    (different : other ≠ inodeNo) :
    Allocated sblock finish other ↔ Allocated sblock start other := by
  unfold Allocated
  rw [apart.entry other different]

theorem stored_eq
    (apart : Apart sblock inodeNo start finish)
    {other : Nat}
    (different : other ≠ inodeNo)
    (allocated : Allocated sblock start other)
    (place : Slot) :
    stored finish other place = stored start other place := by
  have sameEntry := apart.entry other different
  cases place with
  | direct index => simp only [stored, sameEntry]
  | indirect => simp only [stored, sameEntry]
  | second index =>
      simp only [stored, sameEntry]
      by_cases empty : (start.entry other).indirect = 0
      · rw [if_pos empty, if_pos empty]
      · have present : stored start other .indirect ≠ 0 :=
          fun zero => empty ((toNat_eq_zero_iff _).mp zero)
        have same := apart.data other different allocated .indirect present
        simp only [stored] at same
        rw [if_neg empty, if_neg empty, same]

theorem trans
    {middle : View}
    (first : Apart sblock inodeNo start middle)
    (second : Apart sblock inodeNo middle finish) :
    Apart sblock inodeNo start finish := by
  constructor
  · intro other different
    exact (second.entry other different).trans (first.entry other different)
  · intro other different allocated place present
    have same := first.stored_eq different allocated place
    have step :=
      second.data other different
        ((first.allocated_iff different).mpr allocated) place
        (same ▸ present)
    rw [same] at step
    exact step.trans (first.data other different allocated place present)

theorem slotByte_eq
    (apart : Apart sblock inodeNo start finish)
    {other : Nat}
    (different : other ≠ inodeNo)
    (allocated : Allocated sblock start other)
    (place : Slot)
    (index : Nat) :
    slotByte finish other place index = slotByte start other place index := by
  unfold slotByte
  rw [apart.stored_eq different allocated]
  split_ifs with empty
  · rfl
  · rw [apart.data other different allocated place empty]

/-- The other files keep their bytes. -/
theorem contents_eq
    (apart : Apart sblock inodeNo start finish)
    {other : Nat}
    (different : other ≠ inodeNo)
    (allocated : Allocated sblock start other) :
    contents finish other = contents start other := by
  have sameSize : fileSize finish other = fileSize start other := by
    unfold fileSize
    rw [apart.entry other different]
  unfold contents
  rw [sameSize]
  apply List.map_congr_left
  intro position _
  unfold fileByte
  split
  · exact apart.slotByte_eq different allocated _ _
  · rfl

theorem hasBlock
    (apart : Apart sblock inodeNo start finish)
    {other : Nat}
    (different : other ≠ inodeNo)
    (allocated : Allocated sblock start other)
    {index : Nat}
    (present : HasBlock start other index) :
    HasBlock finish other index := by
  rcases present with ⟨slot, isSlot, nonzero⟩
  refine ⟨slot, isSlot, ?_⟩
  rwa [apart.stored_eq different allocated]

/-- The other files stay complete. -/
theorem complete
    (apart : Apart sblock inodeNo start finish)
    (complete : Complete sblock start)
    (here :
      Allocated sblock finish inodeNo →
        ∀ index, index * blockSize < fileSize finish inodeNo →
          HasBlock finish inodeNo index) :
    Complete sblock finish := by
  intro other allocated index inside
  by_cases same : other = inodeNo
  · subst same
    exact here allocated index inside
  · have before := (apart.allocated_iff same).mp allocated
    have sameSize : fileSize finish other = fileSize start other := by
      unfold fileSize
      rw [apart.entry other same]
    rw [sameSize] at inside
    exact apart.hasBlock same before (complete other before index inside)

theorem withEntry
    {entry : InodeEntry} :
    Apart sblock inodeNo start
      (BlockOwnership.withEntry start inodeNo entry) := by
  constructor
  · intro other different
    simp [BlockOwnership.withEntry, different]
  · intro other _ _ place _
    rfl

theorem cleared
    {entry : InodeEntry} :
    Apart sblock inodeNo start
      (BlockOwnership.cleared start inodeNo entry) := by
  constructor
  · intro other different
    simp [BlockOwnership.cleared, BlockOwnership.withEntry, different]
  · intro other _ _ place _
    rfl

end Apart

/-! ## Attaching blocks -/

theorem Owned.ne_of_other
    (owned : Owned sblock start)
    (allocated : Allocated sblock start inodeNo)
    {other : Nat}
    (otherAllocated : Allocated sblock start other)
    (different : other ≠ inodeNo)
    {place slot : Slot}
    (present : stored start other place ≠ 0) :
    stored start other place ≠ stored start inodeNo slot := by
  intro same
  have equal :=
    owned.exact.distinct (other, place) (inodeNo, slot) otherAllocated
      allocated same present
  exact different (Prod.mk.inj equal).1

theorem Owned.ne_free
    (owned : Owned sblock start)
    {other : Nat}
    (otherAllocated : Allocated sblock start other)
    {place : Slot}
    (present : stored start other place ≠ 0)
    {blockNo : Nat}
    (free : start.used blockNo = false) :
    stored start other place ≠ blockNo := by
  have keyLive :
      (fun key : Nat × Slot => Allocated sblock start key.1)
        (other, place) :=
    otherAllocated
  have taken : start.used (stored start other place) = true :=
    owned.exact.used_of_stored keyLive present
  rintro rfl
  rw [free] at taken
  simp at taken

theorem apart_attach
    (owned : Owned sblock start)
    (allocated : Allocated sblock start inodeNo)
    {slot : Slot}
    {blockNo : Nat}
    (free : start.used blockNo = false) :
    Apart sblock inodeNo start (attach start inodeNo slot blockNo) := by
  refine ⟨fun other different => attach_entry_of_ne different, ?_⟩
  intro other different otherAllocated place present
  have notFresh := Owned.ne_free owned otherAllocated present free
  cases slot with
  | direct index => simp [attach, notFresh]
  | indirect => simp [attach, notFresh]
  | second index =>
      have table :
          stored start other place ≠
            (start.entry inodeNo).indirect.toNat := by
        change stored start other place ≠ stored start inodeNo .indirect
        exact Owned.ne_of_other owned allocated otherAllocated different
          present
      simp [attach, notFresh, table]

theorem Extends.apart
    (extends_ : Extends sblock inodeNo start finish)
    (owned : Owned sblock start)
    (allocated : Allocated sblock start inodeNo) :
    Apart sblock inodeNo start finish := by
  induction extends_ with
  | refl => exact Apart.refl
  | attach extended ready empty isData free ih =>
      exact ih.trans
        (apart_attach (extended.owned owned allocated)
          ((extended.allocated_iff _).mpr allocated) free)

/-- A fresh block reads as zeros, as did the empty slot. -/
theorem slotByte_attach
    (owned : Owned sblock start)
    (allocated : Allocated sblock start inodeNo)
    {slot : Slot}
    {blockNo : Nat}
    (ready : Ready start inodeNo slot)
    (empty : stored start inodeNo slot = 0)
    (isData : IsData sblock blockNo)
    (free : start.used blockNo = false)
    {place : Slot}
    (notIndirect : place ≠ .indirect)
    (index : Nat) :
    slotByte (attach start inodeNo slot blockNo) inodeNo place index =
      slotByte start inodeNo place index := by
  have attached :=
    stored_attach owned allocated isData free ready empty allocated place
  unfold slotByte
  by_cases same : place = slot
  · subst same
    rw [if_pos ⟨rfl, rfl⟩] at attached
    have zeroed :
        (attach start inodeNo place blockNo).data blockNo =
          fun _ => 0 := by
      cases place with
      | direct place => simp [attach]
      | indirect => exact absurd rfl notIndirect
      | second place =>
          have table := owned.indirect_ne_free free allocated ready
          simp [attach, Ne.symm table]
    rw [attached, if_pos empty, zeroed]
    split_ifs with zero
    · rfl
    · unfold byteAt
      split_ifs <;> rfl
  · rw [if_neg (fun both => same both.2)] at attached
    rw [attached]
    split_ifs with absent
    · rfl
    · rw [attach_data owned allocated ready free allocated notIndirect
        absent]

theorem Extends.slotByte
    (extends_ : Extends sblock inodeNo start finish)
    (owned : Owned sblock start)
    (allocated : Allocated sblock start inodeNo)
    {place : Slot}
    (notIndirect : place ≠ .indirect)
    (index : Nat) :
    slotByte finish inodeNo place index =
      FileContents.slotByte start inodeNo place index := by
  induction extends_ with
  | refl => rfl
  | attach extended ready empty isData free ih =>
      rw [slotByte_attach (extended.owned owned allocated)
        ((extended.allocated_iff _).mpr allocated) ready empty isData free
        notIndirect, ih]

/-- Attaching blocks changes no byte of the file. -/
theorem Extends.fileByte
    (extends_ : Extends sblock inodeNo start finish)
    (owned : Owned sblock start)
    (allocated : Allocated sblock start inodeNo)
    (position : Nat) :
    fileByte finish inodeNo position =
      FileContents.fileByte start inodeNo position := by
  unfold FileContents.fileByte
  split
  · rename_i slot isSlot
    apply Extends.slotByte extends_ owned allocated
    rintro rfl
    exact slotOf_ne_indirect isSlot
  · rfl

theorem Extends.hasBlock
    (extends_ : Extends sblock inodeNo start finish)
    (owned : Owned sblock start)
    (allocated : Allocated sblock start inodeNo)
    {index : Nat}
    (present : HasBlock start inodeNo index) :
    HasBlock finish inodeNo index := by
  rcases present with ⟨slot, isSlot, nonzero⟩
  refine ⟨slot, isSlot, ?_⟩
  rwa [extends_.stored owned allocated allocated nonzero]

/-! ## Changing the bytes of a block -/

/-- The contents of a block are replaced. -/
def withData (view : View) (blockNo : Nat) (data : BlockData) : View :=
  { view with data := Function.update view.data blockNo data }

section Data

variable
    {data : BlockData}
    {slot : Slot}

/-- A block of a file holds no block numbers. -/
theorem stored_withData
    (owned : Owned sblock start)
    (allocated : Allocated sblock start inodeNo)
    (notIndirect : slot ≠ .indirect)
    {other : Nat}
    (otherAllocated : Allocated sblock start other)
    (place : Slot) :
    stored (withData start (stored start inodeNo slot) data) other place =
      stored start other place := by
  cases place with
  | direct index => rfl
  | indirect => rfl
  | second index =>
      by_cases empty : (start.entry other).indirect = 0
      · simp [stored, withData, empty]
      · have apart :
            stored start other .indirect ≠ stored start inodeNo slot := by
          intro same
          have nonzero : stored start other .indirect ≠ 0 :=
            fun zero => empty ((toNat_eq_zero_iff _).mp zero)
          have equal :=
            owned.exact.distinct (other, .indirect) (inodeNo, slot)
              otherAllocated allocated same nonzero
          exact notIndirect (Prod.mk.inj equal).2.symm
        change
          stored
              { start with
                data :=
                  Function.update start.data (stored start inodeNo slot)
                    data }
              other (.second index) =
            stored start other (.second index)
        unfold stored
        simp only [if_neg empty]
        rw [Function.update_of_ne]
        exact apart

theorem owned_withData
    (owned : Owned sblock start)
    (allocated : Allocated sblock start inodeNo)
    (notIndirect : slot ≠ .indirect) :
    Owned sblock (withData start (stored start inodeNo slot) data) := by
  refine ⟨?_, owned.reserved⟩
  refine owned.exact.relabel ?_ ?_ ?_
  · intro key live gone
    exact absurd live gone
  · intro key live new
    exact absurd live new
  · intro key live _
    exact stored_withData owned allocated notIndirect live key.2

theorem apart_withData
    (owned : Owned sblock start)
    (allocated : Allocated sblock start inodeNo) :
    Apart sblock inodeNo start
      (withData start (stored start inodeNo slot) data) := by
  refine ⟨fun _ _ => rfl, ?_⟩
  intro other different otherAllocated place otherPresent
  have apart :
      stored start other place ≠ stored start inodeNo slot :=
    Owned.ne_of_other owned allocated otherAllocated different otherPresent
  exact Function.update_of_ne apart _ _

theorem slotByte_withData
    (owned : Owned sblock start)
    (allocated : Allocated sblock start inodeNo)
    (notIndirect : slot ≠ .indirect)
    (present : stored start inodeNo slot ≠ 0)
    (data : BlockData)
    (place : Slot)
    (index : Nat) :
    slotByte (withData start (stored start inodeNo slot) data) inodeNo
        place index =
      if place = slot then byteAt data index
      else slotByte start inodeNo place index := by
  unfold slotByte
  rw [stored_withData owned allocated notIndirect allocated]
  by_cases same : place = slot
  · subst same
    rw [if_neg present, if_pos rfl]
    simp [withData]
  · rw [if_neg same]
    split_ifs with empty
    · rfl
    · have apart :
          stored start inodeNo place ≠ stored start inodeNo slot := by
        intro equalBlock
        have equal :=
          owned.exact.distinct (inodeNo, place) (inodeNo, slot) allocated
            allocated equalBlock empty
        exact same (Prod.mk.inj equal).2
      simp only [withData]
      rw [Function.update_of_ne apart]

/-- Copying bytes into one block of a file changes those bytes only. -/
theorem fileByte_withData
    (owned : Owned sblock start)
    (allocated : Allocated sblock start inodeNo)
    {position len : Nat}
    (isSlot : slotOf (position / blockSize) = some slot)
    (present : stored start inodeNo slot ≠ 0)
    (fits : position % blockSize + len ≤ blockSize)
    (bytes : Nat → UInt8)
    (other : Nat) :
    fileByte
        (withData start (stored start inodeNo slot)
          (patch (start.data (stored start inodeNo slot))
            (position % blockSize) len bytes))
        inodeNo other =
      if position ≤ other ∧ other < position + len then
        bytes (other - position)
      else
        fileByte start inodeNo other := by
  have notIndirect : slot ≠ .indirect := by
    rintro rfl
    exact slotOf_ne_indirect isSlot
  have byte :=
    slotByte_withData owned allocated notIndirect present
      (patch (start.data (stored start inodeNo slot))
        (position % blockSize) len bytes)
  have position_eq := Nat.div_add_mod position blockSize
  have other_eq := Nat.div_add_mod other blockSize
  have otherBelow := Nat.mod_lt other (show 0 < blockSize by decide)
  unfold fileByte
  by_cases sameBlock : other / blockSize = position / blockSize
  · rw [sameBlock, isSlot]
    simp only
    rw [byte, if_pos rfl, byteAt_patch _ _ fits]
    rw [sameBlock] at other_eq
    simp only [slotByte, if_neg present]
    have inside :
        (position % blockSize ≤ other % blockSize ∧
          other % blockSize < position % blockSize + len) ↔
        (position ≤ other ∧ other < position + len) := by
      omega
    simp only [inside]
    split_ifs with here
    · congr 1
      omega
    · rfl
  · have outside : ¬ (position ≤ other ∧ other < position + len) := by
      rintro ⟨after, before⟩
      apply sameBlock
      simp only [blockSize] at *
      omega
    rw [if_neg outside]
    cases otherSlot : slotOf (other / blockSize) with
    | none => rfl
    | some place =>
        simp only
        rw [byte, if_neg]
        rintro rfl
        exact sameBlock (slotOf_inj otherSlot isSlot)

end Data

end FudanOS.Fs.FileContents
