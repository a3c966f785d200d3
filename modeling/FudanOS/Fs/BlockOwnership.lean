import FudanOS.Fs.InodeLayout
import FudanOS.Library.Ownership

/-!
# Which inode owns which block

An allocated inode stores block numbers in its direct addresses, its indirect
address and the entries of its indirect block.  In an owned view no number is
stored twice, all of them are data blocks, and the bits of the data blocks are
exactly those of the stored ones.
-/

namespace FudanOS.Fs.BlockOwnership

open FudanOS.Fs.Defines
open FudanOS.Fs.BlockBitmap
open FudanOS.Fs.InodeLayout
open FudanOS.Library.Ownership

/-- A place in which an inode stores a block number. -/
inductive Slot where
  | direct (index : Fin inodeNumDirect)
  | indirect
  | second (index : Fin inodeNumIndirect)
  deriving DecidableEq

/-- The number which an inode stores in a slot, or zero. -/
def stored (view : View) (inodeNo : Nat) : Slot → Nat
  | .direct index => ((view.entry inodeNo).addrs index).toNat
  | .indirect => (view.entry inodeNo).indirect.toNat
  | .second index =>
      if (view.entry inodeNo).indirect = 0 then
        0
      else
        (addrAt (view.data (view.entry inodeNo).indirect.toNat)
          index).toNat

/-- `type != INODE_INVALID` -/
def Allocated (sblock : SuperBlock) (view : View) (inodeNo : Nat) : Prop :=
  0 < inodeNo ∧ inodeNo < sblock.numInodes.toNat ∧
    (view.entry inodeNo).type ≠ inodeInvalid

instance (sblock : SuperBlock) (view : View) (inodeNo : Nat) :
    Decidable (Allocated sblock view inodeNo) :=
  inferInstanceAs (Decidable (_ ∧ _ ∧ _))

/-- The blocks are owned exactly, and the metadata is marked as used. -/
structure Owned (sblock : SuperBlock) (view : View) : Prop where
  exact :
    Exact (fun key : Nat × Slot => Allocated sblock view key.1)
      (fun key => stored view key.1 key.2) (IsData sblock) view.used
  reserved : ∀ blockNo < dataStart sblock, view.used blockNo = true

/-- A fresh block of zeros is stored in a slot of an inode. -/
def attach (view : View) (inodeNo : Nat) (slot : Slot) (blockNo : Nat) :
    View :=
  let entry := view.entry inodeNo
  let fresh :=
    { view with
      used := Function.update view.used blockNo true
      data := Function.update view.data blockNo fun _ => 0 }
  match slot with
  | .direct index =>
      { fresh with
        entry :=
          Function.update view.entry inodeNo
            { entry with
              addrs :=
                Function.update entry.addrs index
                  (UInt32.ofNat blockNo) } }
  | .indirect =>
      { fresh with
        entry :=
          Function.update view.entry inodeNo
            { entry with indirect := UInt32.ofNat blockNo } }
  | .second index =>
      { fresh with
        data :=
          Function.update fresh.data entry.indirect.toNat
            (setAddr (fresh.data entry.indirect.toNat) index
              (UInt32.ofNat blockNo)) }

variable
    {sblock : SuperBlock}
    {view : View}
    {inodeNo blockNo : Nat}
    {slot : Slot}

theorem toNat_ofNat_of_isData
    (isData : IsData sblock blockNo) :
    (UInt32.ofNat blockNo).toNat = blockNo := by
  exact UInt32.toNat_ofNat_of_lt
    (Nat.lt_trans isData.2 sblock.numBlocks.toNat_lt)

theorem attach_used :
    (attach view inodeNo slot blockNo).used =
      Function.update view.used blockNo true := by
  cases slot <;> rfl

/-- The slot is ready: a second-level slot needs its indirect block. -/
def Ready (view : View) (inodeNo : Nat) : Slot → Prop
  | .second _ => (view.entry inodeNo).indirect ≠ 0
  | _ => True

theorem allocated_attach
    (other : Nat) :
    Allocated sblock (attach view inodeNo slot blockNo) other ↔
      Allocated sblock view other := by
  have type :
      ((attach view inodeNo slot blockNo).entry other).type =
        (view.entry other).type := by
    by_cases same : other = inodeNo
    · subst same
      cases slot <;> simp [attach]
    · cases slot <;> simp [attach, same]
  unfold Allocated
  rw [type]

/-- The indirect block of an allocated inode is used. -/
theorem Owned.used_indirect
    (owned : Owned sblock view)
    (allocated : Allocated sblock view inodeNo)
    (present : (view.entry inodeNo).indirect ≠ 0) :
    view.used (view.entry inodeNo).indirect.toNat = true := by
  have nonzero : stored view inodeNo .indirect ≠ 0 := by
    simpa [stored, ← UInt32.toNat_inj] using present
  have keyLive :
      (fun key : Nat × Slot => Allocated sblock view key.1)
        (inodeNo, .indirect) :=
    allocated
  exact owned.exact.used_of_stored keyLive nonzero

theorem toNat_eq_zero_iff (address : UInt32) :
    address.toNat = 0 ↔ address = 0 := by
  rw [← UInt32.toNat_inj]
  rfl

/-- Two allocated inodes have different indirect blocks. -/
theorem Owned.indirect_ne
    (owned : Owned sblock view)
    {other : Nat}
    (allocated : Allocated sblock view inodeNo)
    (otherAllocated : Allocated sblock view other)
    (present : (view.entry inodeNo).indirect ≠ 0)
    (different : other ≠ inodeNo) :
    (view.entry other).indirect.toNat ≠
      (view.entry inodeNo).indirect.toNat := by
  intro same
  have nonzero : stored view other .indirect ≠ 0 := by
    show (view.entry other).indirect.toNat ≠ 0
    rw [same]
    exact fun zero => present ((toNat_eq_zero_iff _).mp zero)
  have equal :=
    owned.exact.distinct (other, .indirect) (inodeNo, .indirect)
      otherAllocated allocated same nonzero
  exact different (Prod.mk.inj equal).1

section Attach

variable
    (owned : Owned sblock view)
    (allocated : Allocated sblock view inodeNo)
    (isData : IsData sblock blockNo)
    (free : view.used blockNo = false)

include owned free

theorem Owned.indirect_ne_free
    {other : Nat}
    (otherAllocated : Allocated sblock view other)
    (present : (view.entry other).indirect ≠ 0) :
    (view.entry other).indirect.toNat ≠ blockNo := by
  intro same
  have taken := owned.used_indirect otherAllocated present
  rw [same, free] at taken
  simp at taken

include isData

theorem stored_attach_direct
    {index : Fin inodeNumDirect}
    {other : Nat}
    (otherAllocated : Allocated sblock view other)
    (slot : Slot) :
    stored (attach view inodeNo (.direct index) blockNo) other slot =
      if other = inodeNo ∧ slot = .direct index then blockNo
      else stored view other slot := by
  have number := toNat_ofNat_of_isData isData
  cases slot with
  | direct place =>
      by_cases same : other = inodeNo
      · subst same
        by_cases samePlace : place = index
        · subst samePlace
          simp [stored, attach, number]
        · simp [stored, attach, samePlace]
      · simp [stored, attach, same]
  | indirect =>
      by_cases same : other = inodeNo
      · subst same
        simp [stored, attach]
      · simp [stored, attach, same]
  | second place =>
      have entry :
          ((attach view inodeNo (.direct index) blockNo).entry
            other).indirect = (view.entry other).indirect := by
        by_cases same : other = inodeNo
        · subst same
          simp [attach]
        · simp [attach, same]
      simp only [stored, entry, reduceCtorEq, and_false, if_false]
      by_cases present : (view.entry other).indirect = 0
      · rw [if_pos present, if_pos present]
      · have apart := owned.indirect_ne_free free otherAllocated present
        rw [if_neg present, if_neg present]
        simp only [attach, Function.update_of_ne apart]

theorem stored_attach_indirect
    {other : Nat}
    (empty : (view.entry inodeNo).indirect = 0)
    (otherAllocated : Allocated sblock view other)
    (slot : Slot) :
    stored (attach view inodeNo .indirect blockNo) other slot =
      if other = inodeNo ∧ slot = .indirect then blockNo
      else stored view other slot := by
  have number := toNat_ofNat_of_isData isData
  cases slot with
  | direct place =>
      by_cases same : other = inodeNo
      · subst same
        simp [stored, attach]
      · simp [stored, attach, same]
  | indirect =>
      by_cases same : other = inodeNo
      · subst same
        simp [stored, attach, number]
      · simp [stored, attach, same]
  | second place =>
      by_cases same : other = inodeNo
      · subst same
        simp [stored, attach, number, empty, addrAt_zero]
      · simp only [stored, attach, Function.update_of_ne same,
          reduceCtorEq, and_false, if_false]
        by_cases present : (view.entry other).indirect = 0
        · rw [if_pos present, if_pos present]
        · have apart := owned.indirect_ne_free free otherAllocated present
          rw [if_neg present, if_neg present, Function.update_of_ne apart]

include allocated

theorem stored_attach_second
    {index : Fin inodeNumIndirect}
    {other : Nat}
    (ready : (view.entry inodeNo).indirect ≠ 0)
    (otherAllocated : Allocated sblock view other)
    (slot : Slot) :
    stored (attach view inodeNo (.second index) blockNo) other slot =
      if other = inodeNo ∧ slot = .second index then blockNo
      else stored view other slot := by
  have number := toNat_ofNat_of_isData isData
  cases slot with
  | direct place => simp [stored, attach]
  | indirect => simp [stored, attach]
  | second place =>
      have apartHere := owned.indirect_ne_free free allocated ready
      by_cases same : other = inodeNo
      · subst same
        simp only [stored, attach, if_neg ready, Function.update_self,
          Function.update_of_ne apartHere, addrAt_setAddr _ index.isLt]
        by_cases samePlace : place = index
        · subst samePlace
          simp [number]
        · have apart : place.val ≠ index.val :=
            fun value => samePlace (Fin.ext value)
          simp [samePlace, apart]
      · by_cases present : (view.entry other).indirect = 0
        · simp [stored, attach, same, present]
        · have apart := owned.indirect_ne_free free otherAllocated present
          have different :=
            owned.indirect_ne allocated otherAllocated ready same
          simp [stored, attach, same, present, different, apart]

/-- Only the slot which gets the block stores something else. -/
theorem stored_attach
    (ready : Ready view inodeNo slot)
    (empty : stored view inodeNo slot = 0)
    {other : Nat}
    (otherAllocated : Allocated sblock view other)
    (place : Slot) :
    stored (attach view inodeNo slot blockNo) other place =
      if other = inodeNo ∧ place = slot then blockNo
      else stored view other place := by
  cases slot with
  | direct index =>
      exact stored_attach_direct owned isData free otherAllocated place
  | indirect =>
      exact stored_attach_indirect owned isData free
        ((toNat_eq_zero_iff _).mp empty) otherAllocated place
  | second index =>
      exact stored_attach_second owned allocated isData free ready
        otherAllocated place

/-- Attaching a free block to an empty slot keeps the ownership exact. -/
theorem owned_attach
    (ready : Ready view inodeNo slot)
    (empty : stored view inodeNo slot = 0) :
    Owned sblock (attach view inodeNo slot blockNo) := by
  have live :
      (fun key : Nat × Slot =>
        Allocated sblock (attach view inodeNo slot blockNo) key.1) =
      fun key => Allocated sblock view key.1 := by
    funext key
    exact propext (allocated_attach key.1)
  constructor
  · rw [live, attach_used]
    have ownerLive :
        (fun key : Nat × Slot => Allocated sblock view key.1)
          (inodeNo, slot) :=
      allocated
    refine owned.exact.attach ownerLive empty isData free ?_ ?_
    · have here :=
        stored_attach owned allocated isData free ready empty allocated slot
      simpa using here
    · rintro ⟨other, place⟩ otherAllocated different
      have elsewhere :=
        stored_attach owned allocated isData free ready empty
          otherAllocated place
      rw [if_neg] at elsewhere
      · exact elsewhere
      · rintro ⟨rfl, rfl⟩
        exact different rfl
  · intro other before
    rw [attach_used]
    by_cases same : other = blockNo
    · subst same
      rw [Function.update_self]
    · rw [Function.update_of_ne same]
      exact owned.reserved other before

end Attach

/-! ## Growing an inode -/

/-- The slot of a block of a file. -/
def slotOf (index : Nat) : Option Slot :=
  if direct : index < inodeNumDirect then
    some (.direct ⟨index, direct⟩)
  else if second : index - inodeNumDirect < inodeNumIndirect then
    some (.second ⟨index - inodeNumDirect, second⟩)
  else
    none

theorem slotOf_inj
    {left right : Nat}
    (leftSlot : slotOf left = some slot)
    (rightSlot : slotOf right = some slot) :
    left = right := by
  unfold slotOf at leftSlot rightSlot
  split_ifs at leftSlot rightSlot <;> grind

theorem slotOf_ne_indirect
    {index : Nat} :
    slotOf index ≠ some .indirect := by
  unfold slotOf
  split_ifs <;> simp

theorem slotOf_isSome
    {index : Nat}
    (inside : index < inodeMaxBlocks) :
    ∃ slot, slotOf index = some slot := by
  unfold slotOf
  split_ifs with direct second
  · exact ⟨_, rfl⟩
  · exact ⟨_, rfl⟩
  · simp only [inodeMaxBlocks, inodeNumDirect] at inside direct second
    omega

/-- Blocks are attached to one inode, one after the other. -/
inductive Extends (sblock : SuperBlock) (inodeNo : Nat) (start : View) :
    View → Prop where
  | refl : Extends sblock inodeNo start start
  | attach
      {middle : View}
      {place : Slot}
      {fresh : Nat}
      (extended : Extends sblock inodeNo start middle)
      (ready : Ready middle inodeNo place)
      (empty : stored middle inodeNo place = 0)
      (isData : IsData sblock fresh)
      (free : middle.used fresh = false) :
      Extends sblock inodeNo start
        (BlockOwnership.attach middle inodeNo place fresh)

section Extends

variable {start finish : View}

theorem Extends.trans
    {middle : View}
    (first : Extends sblock inodeNo start middle)
    (second : Extends sblock inodeNo middle finish) :
    Extends sblock inodeNo start finish := by
  induction second with
  | refl => exact first
  | attach _ ready empty isData free ih =>
      exact ih.attach ready empty isData free

theorem Extends.allocated_iff
    (extends_ : Extends sblock inodeNo start finish)
    (other : Nat) :
    Allocated sblock finish other ↔ Allocated sblock start other := by
  induction extends_ with
  | refl => exact Iff.rfl
  | attach _ _ _ _ _ ih => exact (allocated_attach other).trans ih

theorem Extends.owned
    (extends_ : Extends sblock inodeNo start finish)
    (owned : Owned sblock start)
    (allocated : Allocated sblock start inodeNo) :
    Owned sblock finish := by
  induction extends_ with
  | refl => exact owned
  | attach extended ready empty isData free ih =>
      exact owned_attach ih ((extended.allocated_iff _).mpr allocated)
        isData free ready empty

/-- The fields of an entry other than its addresses. -/
structure SameFields (left right : InodeEntry) : Prop where
  type : left.type = right.type
  major : left.major = right.major
  minor : left.minor = right.minor
  numLinks : left.numLinks = right.numLinks
  numBytes : left.numBytes = right.numBytes

theorem sameFields_attach
    (other : Nat) :
    SameFields ((attach view inodeNo slot blockNo).entry other)
      (view.entry other) := by
  by_cases same : other = inodeNo
  · subst same
    cases slot <;> constructor <;> simp [attach]
  · cases slot <;> constructor <;> simp [attach, same]

theorem Extends.sameFields
    (extends_ : Extends sblock inodeNo start finish)
    (other : Nat) :
    SameFields (finish.entry other) (start.entry other) := by
  induction extends_ with
  | refl => exact ⟨rfl, rfl, rfl, rfl, rfl⟩
  | @attach middle place fresh _ _ _ _ _ ih =>
      have step :
          SameFields
            ((BlockOwnership.attach middle inodeNo place fresh).entry other)
            (middle.entry other) :=
        sameFields_attach other
      exact ⟨step.type.trans ih.type, step.major.trans ih.major,
        step.minor.trans ih.minor, step.numLinks.trans ih.numLinks,
        step.numBytes.trans ih.numBytes⟩

theorem attach_entry_of_ne
    {other : Nat}
    (different : other ≠ inodeNo) :
    (attach view inodeNo slot blockNo).entry other = view.entry other := by
  cases slot <;> simp [attach, different]

/-- The entries of the other inodes stay. -/
theorem Extends.entry_of_ne
    (extends_ : Extends sblock inodeNo start finish)
    {other : Nat}
    (different : other ≠ inodeNo) :
    finish.entry other = start.entry other := by
  induction extends_ with
  | refl => rfl
  | attach _ _ _ _ _ ih => exact (attach_entry_of_ne different).trans ih

theorem Extends.used
    (extends_ : Extends sblock inodeNo start finish)
    {other : Nat}
    (isUsed : start.used other = true) :
    finish.used other = true := by
  induction extends_ with
  | refl => exact isUsed
  | @attach middle place fresh _ _ _ _ _ ih =>
      rw [attach_used]
      by_cases same : other = fresh
      · rw [same, Function.update_self]
      · rw [Function.update_of_ne same]
        exact ih

/-- What a slot of an allocated inode stores stays there. -/
theorem Extends.stored
    (extends_ : Extends sblock inodeNo start finish)
    (owned : Owned sblock start)
    (allocated : Allocated sblock start inodeNo)
    {other : Nat}
    (otherAllocated : Allocated sblock start other)
    {place : Slot}
    (present : BlockOwnership.stored start other place ≠ 0) :
    BlockOwnership.stored finish other place =
      BlockOwnership.stored start other place := by
  induction extends_ with
  | refl => rfl
  | attach extended ready empty isData free ih =>
      rw [stored_attach (extended.owned owned allocated)
        ((extended.allocated_iff _).mpr allocated) isData free ready empty
        ((extended.allocated_iff _).mpr otherAllocated), if_neg, ih]
      rintro ⟨rfl, rfl⟩
      rw [ih] at empty
      exact present empty

theorem Extends.stored_of_ne
    (extends_ : Extends sblock inodeNo start finish)
    (owned : Owned sblock start)
    (allocated : Allocated sblock start inodeNo)
    {other : Nat}
    (otherAllocated : Allocated sblock start other)
    (different : other ≠ inodeNo)
    (place : Slot) :
    BlockOwnership.stored finish other place =
      BlockOwnership.stored start other place := by
  induction extends_ with
  | refl => rfl
  | attach extended ready empty isData free ih =>
      rw [stored_attach (extended.owned owned allocated)
        ((extended.allocated_iff _).mpr allocated) isData free ready empty
        ((extended.allocated_iff _).mpr otherAllocated), if_neg, ih]
      rintro ⟨same, -⟩
      exact different same

/-- The contents of a file block stay; the indirect blocks may change. -/
theorem attach_data
    (owned : Owned sblock view)
    (allocated : Allocated sblock view inodeNo)
    (ready : Ready view inodeNo slot)
    (free : view.used blockNo = false)
    {other : Nat}
    (otherAllocated : Allocated sblock view other)
    {place : Slot}
    (notIndirect : place ≠ .indirect)
    (present : stored view other place ≠ 0) :
    (attach view inodeNo slot blockNo).data (stored view other place) =
      view.data (stored view other place) := by
  have keyLive :
      (fun key : Nat × Slot => Allocated sblock view key.1)
        (other, place) :=
    otherAllocated
  have isUsed := owned.exact.used_of_stored keyLive present
  have notFresh : stored view other place ≠ blockNo := by
    intro same
    have taken : view.used (stored view other place) = true := isUsed
    rw [same, free] at taken
    simp at taken
  cases slot with
  | direct index => simp [attach, notFresh]
  | indirect => simp [attach, notFresh]
  | second index =>
      have notTable :
          stored view other place ≠
            (view.entry inodeNo).indirect.toNat := by
        intro same
        have equal :=
          owned.exact.distinct (other, place) (inodeNo, .indirect)
            otherAllocated allocated same present
        exact notIndirect (Prod.mk.inj equal).2
      simp [attach, notFresh, notTable]

theorem Extends.data
    (extends_ : Extends sblock inodeNo start finish)
    (owned : Owned sblock start)
    (allocated : Allocated sblock start inodeNo)
    {other : Nat}
    (otherAllocated : Allocated sblock start other)
    {place : Slot}
    (notIndirect : place ≠ .indirect)
    (present : BlockOwnership.stored start other place ≠ 0) :
    finish.data (BlockOwnership.stored start other place) =
      start.data (BlockOwnership.stored start other place) := by
  induction extends_ with
  | refl => rfl
  | attach extended ready empty isData free ih =>
      have same := extended.stored owned allocated otherAllocated present
      have step :=
        attach_data (extended.owned owned allocated)
          ((extended.allocated_iff _).mpr allocated) ready free
          ((extended.allocated_iff _).mpr otherAllocated) notIndirect
          (same ▸ present)
      rw [same] at step
      rw [step, ih]

end Extends

/-! ## Changing and clearing an inode -/

/-- The view with another entry of an inode. -/
def withEntry (view : View) (inodeNo : Nat) (entry : InodeEntry) : View :=
  { view with entry := Function.update view.entry inodeNo entry }

section Entries

variable
    {entry : InodeEntry}

theorem stored_withEntry_of_ne
    {other : Nat}
    (different : other ≠ inodeNo)
    (place : Slot) :
    stored (withEntry view inodeNo entry) other place =
      stored view other place := by
  cases place <;> simp [stored, withEntry, different]

theorem allocated_withEntry_of_ne
    {other : Nat}
    (different : other ≠ inodeNo) :
    Allocated sblock (withEntry view inodeNo entry) other ↔
      Allocated sblock view other := by
  simp [Allocated, withEntry, different]

/-- An entry may change as long as its addresses and its validity stay. -/
theorem owned_withEntry
    (owned : Owned sblock view)
    (addrs : entry.addrs = (view.entry inodeNo).addrs)
    (indirect : entry.indirect = (view.entry inodeNo).indirect)
    (valid :
      entry.type = inodeInvalid ↔
        (view.entry inodeNo).type = inodeInvalid) :
    Owned sblock (withEntry view inodeNo entry) := by
  have sameStored :
      ∀ other place,
        stored (withEntry view inodeNo entry) other place =
          stored view other place := by
    intro other place
    by_cases same : other = inodeNo
    · subst same
      cases place <;> simp [stored, withEntry, addrs, indirect]
    · exact stored_withEntry_of_ne same place
  have sameLive :
      ∀ other,
        Allocated sblock (withEntry view inodeNo entry) other ↔
          Allocated sblock view other := by
    intro other
    by_cases same : other = inodeNo
    · subst same
      simp [Allocated, withEntry, valid]
    · exact allocated_withEntry_of_ne same
  refine ⟨?_, owned.reserved⟩
  refine owned.exact.relabel ?_ ?_ ?_
  · intro key live gone
    exact absurd ((sameLive key.1).mpr live) gone
  · intro key live new
    exact absurd ((sameLive key.1).mp live) new
  · intro key _ _
    exact sameStored key.1 key.2

/-- An entry without addresses. -/
structure Bare (entry : InodeEntry) : Prop where
  addrs : ∀ index, entry.addrs index = 0
  indirect : entry.indirect = 0

theorem stored_withEntry_bare
    (bare : Bare entry)
    (place : Slot) :
    stored (withEntry view inodeNo entry) inodeNo place = 0 := by
  cases place <;> simp [stored, withEntry, bare.addrs, bare.indirect]

/-- A free inode gets an entry without addresses. -/
theorem owned_withEntry_fresh
    (owned : Owned sblock view)
    (bare : Bare entry)
    (free : ¬ Allocated sblock view inodeNo) :
    Owned sblock (withEntry view inodeNo entry) := by
  refine ⟨?_, owned.reserved⟩
  refine owned.exact.relabel ?_ ?_ ?_
  · rintro ⟨other, place⟩ live gone
    have different : other ≠ inodeNo := by
      rintro rfl
      exact free live
    exact absurd ((allocated_withEntry_of_ne different).mpr live) gone
  · rintro ⟨other, place⟩ live new
    by_cases same : other = inodeNo
    · subst same
      exact stored_withEntry_bare bare place
    · exact absurd ((allocated_withEntry_of_ne same).mp live) new
  · rintro ⟨other, place⟩ _ wasLive
    have different : other ≠ inodeNo := by
      rintro rfl
      exact free wasLive
    exact stored_withEntry_of_ne different place

/-- The slots of an inode in the order in which `inode_clear` frees them. -/
def slots : List Slot :=
  (List.finRange inodeNumIndirect).map .second ++
    .indirect :: (List.finRange inodeNumDirect).map .direct

theorem mem_slots (slot : Slot) : slot ∈ slots := by
  cases slot <;> simp [slots]

/-- The inode stores the block in one of the slots. -/
def storedIn (view : View) (inodeNo : Nat) (done : List Slot)
    (blockNo : Nat) : Bool :=
  done.any fun slot =>
    stored view inodeNo slot != 0 && stored view inodeNo slot == blockNo

theorem storedIn_iff
    {done : List Slot} :
    storedIn view inodeNo done blockNo = true ↔
      ∃ slot ∈ done,
        stored view inodeNo slot ≠ 0 ∧
          stored view inodeNo slot = blockNo := by
  simp [storedIn]

/-- The bits once the blocks in some slots of an inode are freed. -/
def usedWithout (view : View) (inodeNo : Nat) (done : List Slot)
    (blockNo : Nat) : Bool :=
  view.used blockNo && !storedIn view inodeNo done blockNo

theorem usedWithout_stored
    (owned : Owned sblock view)
    (allocated : Allocated sblock view inodeNo)
    {done : List Slot}
    (new : slot ∉ done)
    (present : stored view inodeNo slot ≠ 0) :
    usedWithout view inodeNo done (stored view inodeNo slot) = true := by
  have keyLive :
      (fun key : Nat × Slot => Allocated sblock view key.1)
        (inodeNo, slot) :=
    allocated
  have isUsed : view.used (stored view inodeNo slot) = true :=
    owned.exact.used_of_stored keyLive present
  have absent :
      storedIn view inodeNo done (stored view inodeNo slot) = false := by
    rw [← Bool.not_eq_true, storedIn_iff]
    rintro ⟨other, member, otherPresent, same⟩
    have equal :=
      owned.exact.distinct (inodeNo, other) (inodeNo, slot) allocated
        allocated same otherPresent
    rw [(Prod.mk.inj equal).2] at member
    exact new member
  simp [usedWithout, isUsed, absent]

theorem usedWithout_append
    {done : List Slot}
    (present : stored view inodeNo slot ≠ 0) :
    Function.update (usedWithout view inodeNo done)
        (stored view inodeNo slot) false =
      usedWithout view inodeNo (done ++ [slot]) := by
  funext other
  by_cases same : other = stored view inodeNo slot
  · subst same
    simp [usedWithout, storedIn, present]
  · have apart : (stored view inodeNo slot == other) = false := by
      simpa using Ne.symm same
    rw [Function.update_of_ne same]
    simp [usedWithout, storedIn, apart]

theorem usedWithout_append_empty
    {done : List Slot}
    (empty : stored view inodeNo slot = 0) :
    usedWithout view inodeNo (done ++ [slot]) =
      usedWithout view inodeNo done := by
  funext other
  simp [usedWithout, storedIn, empty]

/-- The view once an inode is cleared and its entry replaced. -/
def cleared (view : View) (inodeNo : Nat) (entry : InodeEntry) : View :=
  withEntry { view with used := usedWithout view inodeNo slots } inodeNo
    entry

/-- Clearing frees exactly what the inode stored. -/
theorem owned_cleared
    (owned : Owned sblock view)
    (allocated : Allocated sblock view inodeNo)
    (bare : Bare entry) :
    Owned sblock (cleared view inodeNo entry) := by
  have elsewhere :
      ∀ other place, other ≠ inodeNo →
        stored (cleared view inodeNo entry) other place =
          stored view other place := by
    intro other place different
    rw [cleared, stored_withEntry_of_ne different]
    cases place <;> rfl
  have live :
      ∀ other, other ≠ inodeNo →
        (Allocated sblock (cleared view inodeNo entry) other ↔
          Allocated sblock view other) := by
    intro other different
    exact allocated_withEntry_of_ne different
  have released :
      Exact (fun key : Nat × Slot => Allocated sblock view key.1)
        (fun key => stored (cleared view inodeNo entry) key.1 key.2)
        (IsData sblock) (cleared view inodeNo entry).used := by
    have emptied :
        ∀ key : Nat × Slot, Allocated sblock view key.1 →
          key.1 = inodeNo →
            stored (cleared view inodeNo entry) key.1 key.2 = 0 := by
      rintro ⟨other, place⟩ _ rfl
      exact stored_withEntry_bare bare place
    refine owned.exact.release emptied ?_ ?_
    · rintro ⟨other, place⟩ _ different
      exact elsewhere other place different
    · intro number isResource
      have nonzero : number ≠ 0 := by
        rintro rfl
        exact owned.exact.positive isResource
      show usedWithout view inodeNo slots number = true ↔ _
      rw [usedWithout, Bool.and_eq_true, Bool.not_eq_true',
        ← Bool.not_eq_true, storedIn_iff]
      refine and_congr_right fun _ => not_congr ?_
      constructor
      · rintro ⟨place, -, -, same⟩
        exact ⟨(inodeNo, place), allocated, rfl, same⟩
      · rintro ⟨⟨other, place⟩, -, rfl, same⟩
        exact ⟨place, mem_slots place, by rwa [same], same⟩
  constructor
  · refine released.relabel ?_ ?_ ?_
    · rintro ⟨other, place⟩ wasLive gone
      by_cases same : other = inodeNo
      · subst same
        exact stored_withEntry_bare bare place
      · exact absurd ((live other same).mpr wasLive) gone
    · rintro ⟨other, place⟩ isLive new
      by_cases same : other = inodeNo
      · subst same
        exact absurd allocated new
      · exact absurd ((live other same).mp isLive) new
    · intro key _ _
      rfl
  · intro other before
    show usedWithout view inodeNo slots other = true
    have absent : storedIn view inodeNo slots other = false := by
      rw [← Bool.not_eq_true, storedIn_iff]
      rintro ⟨place, -, present, rfl⟩
      have inside : IsData sblock (stored view inodeNo place) :=
        owned.exact.inside (inodeNo, place) allocated present
      exact absurd inside.1 (Nat.not_le.mpr before)
    simp [usedWithout, owned.reserved other before, absent]

end Entries

end FudanOS.Fs.BlockOwnership
