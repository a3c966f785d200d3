import FudanOS.Fs.InodeRefs
import FudanOS.Fs.InodeSpecs

/-!
# The inodes in memory and the disk

Between two functions of the inode layer every inode on the list is valid and
has the entry which the disk stores under its number, and no two inodes on the
list have the same number.  The number need not be allocated: a path may lead
to an inode which has been freed.
-/

namespace FudanOS.Fs.InodeMemory

open FudanOS.Library.Programs
open FudanOS.Fs.Defines
open FudanOS.Fs.BlockBitmap
open FudanOS.Fs.InodeLayout
open FudanOS.Fs.InodeLayer
open FudanOS.Fs.InodeSpecs
open FudanOS.Fs.InodeTable

/-- An inode in memory is the one of the disk. -/
structure Mirrors
    (sblock : SuperBlock)
    (disk : View)
    (inode : Inode) : Prop where
  valid : inode.valid = true
  entry : inode.entry = disk.entry inode.inodeNo
  positive : 0 < inode.inodeNo
  below : inode.inodeNo < sblock.numInodes.toNat

/-- The inodes in memory are those of the disk. -/
structure Settled
    (sblock : SuperBlock)
    (disk : View)
    (state : InodeTable.State) : Prop where
  free : state.store.held = []
  view : state.view sblock = disk
  listed :
    ∀ address ∈ state.head, Mirrors sblock disk (state.nodes address)
  unique :
    ∀ left ∈ state.head, ∀ right ∈ state.head,
      (state.nodes left).inodeNo = (state.nodes right).inodeNo →
        left = right

/-- What `inode_get` returns and leaves. -/
inductive Gets
    (disk : View)
    (state : InodeTable.State)
    (inodeNo fresh : Nat) : Nat → InodeTable.State → Prop where
  | found
      {address : Nat}
      (member : address ∈ state.head)
      (number : (state.nodes address).inodeNo = inodeNo) :
      Gets disk state inodeNo fresh address
        { state with
          nodes :=
            Function.update state.nodes address
              { state.nodes address with
                rc := (state.nodes address).rc + 1 } }
  | loaded
      (absent :
        ∀ address ∈ state.head, (state.nodes address).inodeNo ≠ inodeNo) :
      Gets disk state inodeNo fresh fresh
        { state with
          nodes :=
            Function.update state.nodes fresh
              { rc := 1
                inodeNo := inodeNo
                valid := true
                entry := disk.entry inodeNo }
          head := fresh :: state.head }

section Table

variable
    {sblock : SuperBlock}
    {disk : View}
    {state target : InodeTable.State}
    {inodeNo fresh address : Nat}

theorem Settled.quiet
    (settled : Settled sblock disk state) :
    Quiet sblock state.store := by
  intro block member
  rw [settled.free] at member
  cases member

/-- `inode_get` finds the inode or loads it. -/
theorem Settled.exists_get
    (geometry : Geometry sblock)
    (settled : Settled sblock disk state)
    (fresh : Nat)
    (positive : 0 < inodeNo)
    (below : inodeNo < sblock.numInodes.toNat) :
    ∃ address target,
      inodeGet sblock inodeNo fresh state = .ok (address, target) ∧
        Gets disk state inodeNo fresh address target := by
  have inside : ¬ (inodeNo = 0 ∨ sblock.numInodes.toNat ≤ inodeNo) := by
    omega
  unfold inodeGet
  rw [if_neg inside]
  cases found :
      state.head.find? fun address =>
        (state.nodes address).inodeNo == inodeNo with
  | some address =>
      have number := List.find?_some found
      rw [beq_iff_eq] at number
      exact ⟨address, _, rfl,
        Gets.found (List.mem_of_find?_eq_some found) number⟩
  | none =>
      have reads :
          Ensures (fun _ => False)
            (inodeSync sblock
              { rc := 1
                inodeNo := inodeNo
                valid := false
                entry := (state.nodes fresh).entry }
              false)
            state.store _ :=
        ensures_inodeSync_read geometry settled.quiet rfl below
      rcases reads.returns with ⟨_, _, returned, rfl, rfl⟩
      dsimp only
      rw [returned, ← settled.view]
      refine ⟨fresh, _, rfl, Gets.loaded ?_⟩
      intro address member
      simpa using List.find?_eq_none.mp found address member

/-- What `inode_get` has returned. -/
theorem Settled.gets
    (geometry : Geometry sblock)
    (settled : Settled sblock disk state)
    (returned :
      inodeGet sblock inodeNo fresh state = .ok (address, target)) :
    0 < inodeNo ∧ inodeNo < sblock.numInodes.toNat ∧
      Gets disk state inodeNo fresh address target := by
  by_cases outside : inodeNo = 0 ∨ sblock.numInodes.toNat ≤ inodeNo
  · unfold inodeGet at returned
    rw [if_pos outside] at returned
    cases returned
  · have positive : 0 < inodeNo := by omega
    have below : inodeNo < sblock.numInodes.toNat := by omega
    rcases settled.exists_get geometry fresh positive below with
      ⟨_, _, again, gets⟩
    rw [returned] at again
    cases again
    exact ⟨positive, below, gets⟩

theorem setRc_inodeNo
    (nodes : Nat → Inode)
    (address other : Nat)
    (rc : Int) :
    (Function.update nodes address
      { nodes address with rc := rc } other).inodeNo =
        (nodes other).inodeNo := by
  by_cases same : other = address
  · rw [same, Function.update_self]
  · rw [Function.update_of_ne same]

theorem Settled.setRc
    (settled : Settled sblock disk state)
    (address : Nat)
    (rc : Int) :
    Settled sblock disk
      { state with
        nodes :=
          Function.update state.nodes address
            { state.nodes address with rc := rc } } := by
  refine ⟨settled.free, settled.view, ?_, ?_⟩
  · intro other member
    dsimp only
    by_cases same : other = address
    · rw [same, Function.update_self]
      have mirrors := settled.listed address (same ▸ member)
      exact ⟨mirrors.valid, mirrors.entry, mirrors.positive,
        mirrors.below⟩
    · rw [Function.update_of_ne same]
      exact settled.listed other member
  · intro left leftMember right rightMember
    dsimp only
    rw [setRc_inodeNo, setRc_inodeNo]
    exact settled.unique left leftMember right rightMember

/-- The inodes which were on the list before `inode_get` keep their numbers. -/
theorem Gets.keeps
    (gets : Gets disk state inodeNo fresh address target)
    (isFresh : fresh ∉ state.head)
    {other : Nat}
    (member : other ∈ state.head) :
    other ∈ target.head ∧
      (target.nodes other).inodeNo = (state.nodes other).inodeNo := by
  cases gets with
  | found _ _ => exact ⟨member, setRc_inodeNo _ _ _ _⟩
  | loaded _ =>
      refine ⟨List.mem_cons_of_mem _ member, ?_⟩
      dsimp only
      rw [Function.update_of_ne (ne_of_mem_of_not_mem member isFresh)]

theorem Gets.number
    (gets : Gets disk state inodeNo fresh address target) :
    (target.nodes address).inodeNo = inodeNo := by
  cases gets with
  | found _ number => exact (setRc_inodeNo _ _ _ _).trans number
  | loaded _ =>
      dsimp only
      rw [Function.update_self]

theorem Settled.get
    (settled : Settled sblock disk state)
    (isFresh : fresh ∉ state.head)
    (positive : 0 < inodeNo)
    (below : inodeNo < sblock.numInodes.toNat)
    (gets : Gets disk state inodeNo fresh address target) :
    Settled sblock disk target := by
  cases gets with
  | found member number => exact settled.setRc address _
  | loaded absent =>
      have different : ∀ other ∈ state.head, other ≠ fresh := by
        intro other member
        exact ne_of_mem_of_not_mem member isFresh
      refine ⟨settled.free, settled.view, ?_, ?_⟩
      · intro other member
        dsimp only
        rcases List.mem_cons.mp member with rfl | old
        · rw [Function.update_self]
          exact ⟨rfl, rfl, positive, below⟩
        · rw [Function.update_of_ne (different other old)]
          exact settled.listed other old
      · intro left leftMember right rightMember
        dsimp only
        rcases List.mem_cons.mp leftMember with rfl | leftOld
        · rcases List.mem_cons.mp rightMember with rfl | rightOld
          · exact fun _ => rfl
          · rw [Function.update_self,
              Function.update_of_ne (different right rightOld)]
            intro same
            exact absurd same.symm (absent right rightOld)
        · rw [Function.update_of_ne (different left leftOld)]
          rcases List.mem_cons.mp rightMember with rfl | rightOld
          · rw [Function.update_self]
            intro same
            exact absurd same (absent left leftOld)
          · rw [Function.update_of_ne (different right rightOld)]
            exact settled.unique left leftOld right rightOld

end Table

end FudanOS.Fs.InodeMemory
