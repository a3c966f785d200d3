import FudanOS.Fs.InodeMemory
import FudanOS.Fs.InodeRuns
import FudanOS.Kernel.SysFile

/-!
# Inodes in memory and on disk agree

Runs of calls of the inode layer, of `create` and of `unlinkat`, one at a
time.  A call may get an inode whose number is not allocated, because a
directory can name any number; it gives it back, and `inode_put` takes it off
the list.  While this goes on there is at most one such reference, which is
called loose.
-/

namespace FudanOS.Kernel.InodeAgreement

open FudanOS.Library.Programs
open FudanOS.Library.Runs
open FudanOS.Fs
open FudanOS.Fs.Defines
open FudanOS.Fs.BlockBitmap
open FudanOS.Fs.InodeLayout
open FudanOS.Fs.InodeLayer
open FudanOS.Fs.BlockOwnership
open FudanOS.Fs.FileContents
open FudanOS.Fs.InodeSpecs
open FudanOS.Fs.Directory
open FudanOS.Fs.InodeTable
open FudanOS.Fs.InodeRuns
open FudanOS.Fs.Names
open FudanOS.Fs.InodeRefs
open FudanOS.Fs.InodeMemory
open FudanOS.Kernel.SysFile

/-- The table mirrors the disk, and free inodes have no links and no blocks. -/
structure Coherent (sblock : SuperBlock) (state : InodeTable.State) :
    Prop where
  settled : Settled sblock (state.view sblock) state
  owned : Owned sblock (state.view sblock)
  nodup : state.head.Nodup
  blank :
    ∀ inodeNo,
      ((state.view sblock).entry inodeNo).type = inodeInvalid →
        ((state.view sblock).entry inodeNo).numLinks = 0 ∧
          Bare ((state.view sblock).entry inodeNo)

/--
What holds inside a call.  `refs` counts the references to inodes which are
allocated for sure, and `loose` is one which may not be.
-/
structure Agrees
    (sblock : SuperBlock)
    (refs : Nat → Nat)
    (loose : Option Nat)
    (state : InodeTable.State) : Prop where
  coherent : Coherent sblock state
  counted : Counted (plusOption refs loose) state
  allocated :
    ∀ address ∈ state.head,
      Allocated sblock (state.view sblock) (state.nodes address).inodeNo ∨
        (loose = some address ∧ refs address = 0)

section Agrees

variable
    {sblock : SuperBlock}
    {env : Env}
    {refs : Nat → Nat}
    {loose : Option Nat}
    {state target : InodeTable.State}
    {address : Nat}

theorem plusOption_pos
    (referenced : 0 < refs address) :
    0 < plusOption refs loose address := by
  cases loose with
  | none => exact referenced
  | some other => exact Nat.lt_of_lt_of_le referenced (Nat.le_add_right _ _)

theorem Agrees.listed
    (agrees : Agrees sblock refs loose state)
    (referenced : 0 < refs address) :
    address ∈ state.head :=
  agrees.counted.listed address (plusOption_pos referenced)

theorem Agrees.solid
    (agrees : Agrees sblock refs loose state)
    (referenced : 0 < refs address) :
    Allocated sblock (state.view sblock) (state.nodes address).inodeNo := by
  rcases agrees.allocated address (agrees.listed referenced) with
    solid | ⟨_, none⟩
  · exact solid
  · omega

theorem Coherent.loaded
    (coherent : Coherent sblock state)
    (member : address ∈ state.head)
    (allocated :
      Allocated sblock (state.view sblock)
        (state.nodes address).inodeNo) :
    Loaded sblock (state.view sblock) (state.nodes address) :=
  ⟨(coherent.settled.listed address member).valid,
    (coherent.settled.listed address member).entry, allocated⟩

theorem Coherent.calm
    (coherent : Coherent sblock state) :
    Calm sblock state.store := by
  intro block member
  rw [coherent.settled.free] at member
  cases member

theorem Coherent.setRc
    (coherent : Coherent sblock state)
    (address : Nat)
    (rc : Int) :
    Coherent sblock
      { state with
        nodes :=
          Function.update state.nodes address
            { state.nodes address with rc := rc } } :=
  ⟨coherent.settled.setRc address rc, coherent.owned, coherent.nodup,
    coherent.blank⟩

/-- A reference to an allocated inode is not loose. -/
theorem Agrees.tighten
    (agrees : Agrees sblock refs (some address) state)
    (allocated :
      Allocated sblock (state.view sblock)
        (state.nodes address).inodeNo) :
    Agrees sblock (plus refs address) none state := by
  refine ⟨agrees.coherent, agrees.counted, ?_⟩
  intro other member
  refine Or.inl ?_
  rcases agrees.allocated other member with solid | ⟨isLoose, _⟩
  · exact solid
  · cases isLoose
    exact allocated

theorem Agrees.loosen
    (agrees : Agrees sblock (plus refs address) none state) :
    Agrees sblock refs (some address) state := by
  refine ⟨agrees.coherent, agrees.counted, ?_⟩
  intro other member
  rcases agrees.allocated other member with solid | ⟨isLoose, _⟩
  · exact Or.inl solid
  · cases isLoose

/-! ## Functions which work on one inode -/

/-- A function has worked on an allocated inode. -/
theorem Coherent.onInode
    (coherent : Coherent sblock state)
    (member : address ∈ state.head)
    (allocated :
      Allocated sblock (state.view sblock) (state.nodes address).inodeNo)
    {result : Inode}
    {store : Store}
    (leaves :
      Leaves sblock state.store (state.nodes address) result store) :
    Coherent sblock
      { state with
        store := store
        nodes := Function.update state.nodes address result } := by
  rcases leaves with ⟨rfl, held, operates⟩
  have settled := coherent.settled
  have mirrors := settled.listed address member
  have number :
      ∀ other,
        (Function.update state.nodes address
            { state.nodes address with
              entry :=
                (InodeLayout.view sblock store.blocks).entry
                  (state.nodes address).inodeNo }
            other).inodeNo =
          (state.nodes other).inodeNo := by
    intro other
    by_cases same : other = address
    · rw [same, Function.update_self]
    · rw [Function.update_of_ne same]
  refine ⟨⟨held.trans settled.free, rfl, ?_, ?_⟩, operates.owned,
    coherent.nodup, ?_⟩
  · intro other otherMember
    dsimp only
    by_cases same : other = address
    · rw [same, Function.update_self]
      exact ⟨mirrors.valid, rfl, mirrors.positive, mirrors.below⟩
    · rw [Function.update_of_ne same]
      have old := settled.listed other otherMember
      have different :
          (state.nodes other).inodeNo ≠ (state.nodes address).inodeNo :=
        fun equal =>
          same (settled.unique other otherMember address member equal)
      exact ⟨old.valid,
        old.entry.trans (operates.apart.entry _ different).symm,
        old.positive, old.below⟩
  · intro left leftMember right rightMember
    dsimp only
    rw [number, number]
    exact settled.unique left leftMember right rightMember
  · intro inodeNo free
    by_cases same : inodeNo = (state.nodes address).inodeNo
    · rw [same] at free
      exact absurd (operates.type.symm.trans free) allocated.2.2
    · have entry : (InodeLayout.view sblock store.blocks).entry inodeNo =
          (state.view sblock).entry inodeNo :=
        operates.apart.entry inodeNo same
      change ((InodeLayout.view sblock store.blocks).entry inodeNo).type =
        _ at free
      change ((InodeLayout.view sblock store.blocks).entry inodeNo).numLinks =
        _ ∧ Bare ((InodeLayout.view sblock store.blocks).entry inodeNo)
      rw [entry] at free ⊢
      exact coherent.blank inodeNo free

/-- Programs which work on an inode which is allocated for sure. -/
theorem Agrees.changes
    {Value : Type}
    (agrees : Agrees sblock refs loose state)
    (referenced : 0 < refs address)
    {program : Inode → Program Store Stop (Inode × Value)}
    (works :
      Ensures (fun _ => True) (program (state.nodes address)) state.store
        fun result store =>
          Leaves sblock state.store (state.nodes address) result.1 store) :
    Ensures (fun _ => True) (Inodes.changes address program) state
      fun _ target => Agrees sblock refs loose target := by
  have member := agrees.listed referenced
  unfold Ensures StateT.run at works
  unfold Ensures Inodes.changes StateT.run
  dsimp only
  revert works
  cases program (state.nodes address) state.store with
  | error stop => exact fun _ => trivial
  | ok result =>
      intro leaves
      have operates := leaves.2.2
      have isResult := leaves.1
      refine ⟨agrees.coherent.onInode member (agrees.solid referenced)
        leaves, ⟨?_, agrees.counted.listed⟩, ?_⟩
      · intro other otherMember
        dsimp only
        by_cases same : other = address
        · rw [same, Function.update_self, isResult]
          exact agrees.counted.rc address member
        · rw [Function.update_of_ne same]
          exact agrees.counted.rc other otherMember
      · intro other otherMember
        have number :
            (Function.update state.nodes address result.1.1 other).inodeNo =
              (state.nodes other).inodeNo := by
          by_cases same : other = address
          · rw [same, Function.update_self, isResult]
          · rw [Function.update_of_ne same]
        dsimp only
        rw [number]
        refine (agrees.allocated other otherMember).imp_left ?_
        exact (operates.allocated_iff _).mpr

/-! ## `inode_put` -/

theorem foldlM_freeDirect
    {inode : Inode}
    (bare : ∀ index, inode.entry.addrs index = 0)
    (places : List (Fin inodeNumDirect)) :
    places.foldlM (freeDirect sblock) inode =
      (pure inode : Program Store Stop Inode) := by
  induction places with
  | nil => rfl
  | cons place rest ih =>
      rw [List.foldlM_cons, freeDirect, if_pos (bare place), pure_bind, ih]

/-- A free inode is freed again: only its entry is written. -/
theorem ensures_freeInode_bare
    (geometry : Geometry sblock)
    {store : Store}
    (calm : Calm sblock store)
    {inode : Inode}
    (valid : inode.valid = true)
    (below : inode.inodeNo < sblock.numInodes.toNat)
    (bare : Bare inode.entry) :
    Ensures Stop.Exhausted (freeInode sblock inode) store
      fun result target =>
        result = { inode with entry := freedEntry inode.entry } ∧
          Becomes sblock store target
            (withEntry (view sblock store.blocks) inode.inodeNo
              (freedEntry inode.entry)) := by
  have cleared_ :
      inodeClear sblock
          { inode with entry := { inode.entry with type := inodeInvalid } } =
        inodeSync sblock
          { inode with entry := freedEntry inode.entry } true := by
    have addrs : inode.entry.addrs = fun _ => 0 := funext bare.addrs
    unfold inodeClear clearIndirect
    rw [if_pos bare.indirect, pure_bind, foldlM_freeDirect, pure_bind]
    · unfold Inode.setNumBytes freedEntry clearEntry
      dsimp only
      rw [addrs, bare.indirect]
      rfl
    · exact bare.addrs
  unfold freeInode
  rw [cleared_, ensures_bind]
  refine Ensures.mono
    (ensures_inodeSync_write geometry calm.quiet valid below) ?_
  rintro middle between ⟨rfl, becomes⟩
  refine Ensures.mono
    (ensures_inodeSync_write geometry (calm.of_held becomes.held).quiet
      valid below) ?_
  rintro result target ⟨rfl, held, viewEq⟩
  refine ⟨rfl, held.trans becomes.held, ?_⟩
  rw [viewEq, becomes.view]
  simp [withEntry]

/-- The disk after an inode was freed. -/
structure Freed
    (sblock : SuperBlock)
    (disk after : View)
    (inodeNo : Nat) : Prop where
  owned : Owned sblock after
  others : ∀ other, other ≠ inodeNo → after.entry other = disk.entry other
  type : (after.entry inodeNo).type = inodeInvalid
  numLinks : (after.entry inodeNo).numLinks = 0
  bare : Bare (after.entry inodeNo)

/-- The inode layer frees an inode without links, allocated or not. -/
theorem Coherent.freeInode
    (geometry : Geometry sblock)
    (coherent : Coherent sblock state)
    (member : address ∈ state.head)
    (unlinked : (state.nodes address).entry.numLinks = 0)
    (rc : Int) :
    Ensures (fun _ => True)
      (freeInode sblock { state.nodes address with rc := rc }) state.store
      fun result store =>
        store.held = [] ∧ result.rc = rc ∧
          Freed sblock (state.view sblock) (view sblock store.blocks)
            (state.nodes address).inodeNo := by
  have mirrors := coherent.settled.listed address member
  have freed :
      ∀ entry, (withEntry entry (state.nodes address).inodeNo
        (freedEntry (state.nodes address).entry)).entry
          (state.nodes address).inodeNo =
            freedEntry (state.nodes address).entry := by
    intro entry
    exact Function.update_self _ _ _
  by_cases allocated :
      Allocated sblock (state.view sblock) (state.nodes address).inodeNo
  · have loaded := coherent.loaded member allocated
    have frees :=
      @ensures_freeInode sblock state.store
        { state.nodes address with rc := rc } geometry coherent.calm
        coherent.owned ⟨loaded.valid, loaded.entry, allocated⟩
    refine (frees.accepting fun _ _ => trivial).mono ?_
    rintro result store ⟨rfl, held, viewEq⟩
    refine ⟨held.trans coherent.settled.free, rfl, ?_⟩
    rw [viewEq]
    refine ⟨?_, ?_, ?_, ?_, ?_⟩
    · exact owned_cleared coherent.owned allocated (bare_clearEntry _)
    · intro other different
      exact Function.update_of_ne different _ _
    · exact congrArg InodeEntry.type (freed _)
    · exact (congrArg InodeEntry.numLinks (freed _)).trans unlinked
    · rw [cleared, freed]
      exact bare_clearEntry _
  · have free :
        ((state.view sblock).entry (state.nodes address).inodeNo).type =
          inodeInvalid := by
      by_contra used
      exact allocated ⟨mirrors.positive, mirrors.below, used⟩
    have bare : Bare (state.nodes address).entry := by
      rw [mirrors.entry]
      exact (coherent.blank _ free).2
    have frees :=
      @ensures_freeInode_bare sblock geometry state.store coherent.calm
        { state.nodes address with rc := rc } mirrors.valid mirrors.below
        bare
    refine (frees.accepting fun _ _ => trivial).mono ?_
    rintro result store ⟨rfl, held, viewEq⟩
    refine ⟨held.trans coherent.settled.free, rfl, ?_⟩
    rw [viewEq]
    refine ⟨?_, ?_, ?_, ?_, ?_⟩
    · exact owned_withEntry_fresh coherent.owned (bare_clearEntry _)
        allocated
    · intro other different
      exact Function.update_of_ne different _ _
    · exact congrArg InodeEntry.type (freed _)
    · exact (congrArg InodeEntry.numLinks (freed _)).trans unlinked
    · rw [freed]
      exact bare_clearEntry _

/-- The table once a freed inode is off the list. -/
theorem Coherent.erase
    (coherent : Coherent sblock state)
    (member : address ∈ state.head)
    {result : Inode}
    {store : Store}
    (held : store.held = [])
    (freed :
      Freed sblock (state.view sblock) (view sblock store.blocks)
        (state.nodes address).inodeNo) :
    Coherent sblock
      { store := store
        nodes := Function.update state.nodes address result
        head := state.head.erase address } := by
  have settled := coherent.settled
  have kept :
      ∀ other ∈ state.head.erase address,
        other ∈ state.head ∧ other ≠ address := by
    intro other otherMember
    have both := coherent.nodup.mem_erase_iff.mp otherMember
    exact ⟨both.2, both.1⟩
  refine ⟨⟨held, rfl, ?_, ?_⟩, freed.owned, coherent.nodup.erase address, ?_⟩
  · intro other otherMember
    rcases kept other otherMember with ⟨was, different⟩
    dsimp only
    rw [Function.update_of_ne different]
    have old := settled.listed other was
    have numbers :
        (state.nodes other).inodeNo ≠ (state.nodes address).inodeNo :=
      fun equal =>
        different (settled.unique other was address member equal)
    exact ⟨old.valid, old.entry.trans (freed.others _ numbers).symm,
      old.positive, old.below⟩
  · intro left leftMember right rightMember
    rcases kept left leftMember with ⟨leftWas, leftDifferent⟩
    rcases kept right rightMember with ⟨rightWas, rightDifferent⟩
    dsimp only
    rw [Function.update_of_ne leftDifferent,
      Function.update_of_ne rightDifferent]
    exact settled.unique left leftWas right rightWas
  · intro inodeNo free
    change ((view sblock store.blocks).entry inodeNo).type = _ at free
    change ((view sblock store.blocks).entry inodeNo).numLinks = _ ∧
      Bare ((view sblock store.blocks).entry inodeNo)
    by_cases same : inodeNo = (state.nodes address).inodeNo
    · rw [same]
      exact ⟨freed.numLinks, freed.bare⟩
    · rw [freed.others inodeNo same] at free ⊢
      exact coherent.blank inodeNo free

/-- What `inode_put` leaves: a lower count, or one inode less. -/
theorem Coherent.put
    (geometry : Geometry sblock)
    (coherent : Coherent sblock state)
    (member : address ∈ state.head) :
    Ensures (fun _ => True) (Inodes.put sblock address) state
      fun _ target =>
        Coherent sblock target ∧
          ((target.view sblock = state.view sblock ∧
              target.head = state.head ∧
              (∀ other,
                (target.nodes other).inodeNo =
                  (state.nodes other).inodeNo) ∧
              ¬ ((state.nodes address).rc = 1 ∧
                (state.nodes address).entry.numLinks = 0)) ∨
            (target.head = state.head.erase address ∧
              (∀ other, other ≠ address →
                (target.nodes other).inodeNo =
                  (state.nodes other).inodeNo) ∧
              (∀ other, other ≠ (state.nodes address).inodeNo →
                (target.view sblock).entry other =
                  (state.view sblock).entry other))) := by
  unfold Ensures Inodes.put StateT.run
  dsimp only
  unfold inodePut
  dsimp only
  split_ifs with unneeded
  · have frees :=
      coherent.freeInode geometry member unneeded.2
        ((state.nodes address).rc - 1)
    unfold Ensures at frees
    unfold InodeTable.onInode
    dsimp only
    simp only [Function.update_self, Function.update_idem]
    revert frees
    cases (InodeTable.freeInode sblock
        { state.nodes address with
          rc := (state.nodes address).rc - 1 }).run state.store with
    | error stop => exact fun _ => trivial
    | ok result =>
        rintro ⟨held, _, freed⟩
        refine ⟨coherent.erase member held freed, Or.inr ⟨rfl, ?_, ?_⟩⟩
        · intro other different
          dsimp only
          rw [Function.update_of_ne different]
        · exact freed.others
  · refine ⟨coherent.setRc address _, Or.inl ⟨rfl, rfl, ?_, ?_⟩⟩
    · intro other
      exact setRc_inodeNo _ _ _ _
    · rintro ⟨one, unlinked⟩
      exact unneeded ⟨by omega, unlinked⟩

/-- Inodes whose entries do not change stay allocated. -/
theorem allocated_of_entry
    {disk after : View}
    {inodeNo : Nat}
    (same : after.entry inodeNo = disk.entry inodeNo)
    (allocated : Allocated sblock disk inodeNo) :
    Allocated sblock after inodeNo := by
  refine ⟨allocated.1, allocated.2.1, ?_⟩
  rw [same]
  exact allocated.2.2

/-- A reference is given back. -/
theorem Agrees.put
    (geometry : Geometry sblock)
    {rest : Nat → Nat}
    {restLoose : Option Nat}
    (agrees : Agrees sblock refs loose state)
    (isRest : plusOption refs loose = plus (plusOption rest restLoose) address)
    (tight :
      ∀ other ∈ state.head, other ≠ address →
        Allocated sblock (state.view sblock) (state.nodes other).inodeNo ∨
          (restLoose = some other ∧ rest other = 0))
    (stays :
      ¬ ((state.nodes address).rc = 1 ∧
        (state.nodes address).entry.numLinks = 0) →
          Allocated sblock (state.view sblock)
            (state.nodes address).inodeNo) :
    Ensures (fun _ => True) (Inodes.put sblock address) state
      fun _ target => Agrees sblock rest restLoose target := by
  have counted := agrees.counted
  rw [isRest] at counted
  have member : address ∈ state.head := by
    apply counted.listed
    rw [plus_self]
    exact Nat.succ_pos _
  have lowered :
      Ensures (fun _ => True) (Inodes.put sblock address) state
        fun _ target => Counted (plusOption rest restLoose) target :=
    counts_put state counted
  refine ((agrees.coherent.put geometry member).and lowered).mono ?_
  rintro _ target ⟨⟨coherent, cases_⟩, recounted⟩
  refine ⟨coherent, recounted, ?_⟩
  intro other otherMember
  rcases cases_ with ⟨sameView, sameHead, numbers, kept⟩ |
    ⟨erased, numbers, entries⟩
  · rw [sameHead] at otherMember
    rw [sameView, numbers]
    by_cases same : other = address
    · rw [same]
      exact Or.inl (stays kept)
    · exact tight other otherMember same
  · rw [erased] at otherMember
    rcases agrees.coherent.nodup.mem_erase_iff.mp otherMember with
      ⟨different, was⟩
    rw [numbers other different]
    refine (tight other was different).imp_left ?_
    refine allocated_of_entry (entries _ ?_)
    intro equal
    exact different
      (agrees.coherent.settled.unique other was address member equal)

/-- A reference to an inode which is allocated for sure is given back. -/
theorem Agrees.put_solid
    (geometry : Geometry sblock)
    (agrees : Agrees sblock (plus refs address) loose state) :
    Ensures (fun _ => True) (Inodes.put sblock address) state
      fun _ target => Agrees sblock refs loose target := by
  have referenced : 0 < plus refs address address := by
    rw [plus_self]
    exact Nat.succ_pos _
  have solid := agrees.solid referenced
  refine agrees.put geometry ?_ ?_ fun _ => solid
  · cases loose with
    | none => rfl
    | some other => exact plus_comm refs address other
  · intro other member _
    rcases agrees.allocated other member with allocated | ⟨isLoose, none⟩
    · exact Or.inl allocated
    · by_cases same : other = address
      · rw [same]
        exact Or.inl solid
      · rw [plus_of_ne same] at none
        exact Or.inr ⟨isLoose, none⟩

/-- A loose reference is given back; no inode is left which is not allocated. -/
theorem Agrees.put_loose
    (geometry : Geometry sblock)
    (agrees : Agrees sblock refs (some address) state) :
    Ensures (fun _ => True) (Inodes.put sblock address) state
      fun _ target => Agrees sblock refs none target := by
  have member : address ∈ state.head := by
    apply agrees.counted.listed
    change 0 < plus refs address address
    rw [plus_self]
    exact Nat.succ_pos _
  refine agrees.put geometry rfl ?_ ?_
  · intro other otherMember different
    rcases agrees.allocated other otherMember with allocated | ⟨isLoose, _⟩
    · exact Or.inl allocated
    · cases isLoose
      exact absurd rfl different
  · intro kept
    rcases agrees.allocated address member with allocated | ⟨_, unheld⟩
    · exact allocated
    · -- Without other references the inode is freed unless it has links.
      have mirrors := agrees.coherent.settled.listed address member
      by_contra free
      have type :
          ((state.view sblock).entry (state.nodes address).inodeNo).type =
            inodeInvalid := by
        by_contra used
        exact free ⟨mirrors.positive, mirrors.below, used⟩
      refine kept ⟨?_, ?_⟩
      · rw [agrees.counted.rc address member]
        change ((plus refs address address : Nat) : Int) = 1
        rw [plus_self, unheld]
        rfl
      · rw [mirrors.entry]
        exact (agrees.coherent.blank _ type).1

/-! ## `inode_get`, `inode_share` and `inode_alloc` -/

/-- `inode_get` returns a loose reference. -/
theorem Agrees.get
    (geometry : Geometry sblock)
    (agrees : Agrees sblock refs none state)
    (inodeNo : Nat) :
    Ensures (fun _ => True) (Inodes.get sblock env inodeNo) state
      fun result target =>
        Agrees sblock refs (some result) target ∧
          target.view sblock = state.view sblock ∧
            (target.nodes result).inodeNo = inodeNo := by
  have raised :
      Ensures (fun _ => True) (Inodes.get sblock env inodeNo) state
        fun result target => Counted (plus refs result) target :=
    counts_get state agrees.counted
  have isFresh := env.fresh state.head
  have settled := agrees.coherent.settled
  unfold Ensures
  cases returned : (Inodes.get sblock env inodeNo).run state with
  | error stop => trivial
  | ok pair =>
      rcases pair with ⟨result, target⟩
      have counted := raised.of_run returned
      rcases settled.gets geometry returned with ⟨positive, below, gets⟩
      have after := settled.get isFresh positive below gets
      have number := gets.number
      dsimp only
      refine ⟨⟨⟨?_, ?_, ?_, ?_⟩, counted, ?_⟩, after.view, number⟩
      · rw [after.view]
        exact after
      · rw [after.view]
        exact agrees.coherent.owned
      · cases gets with
        | found _ _ => exact agrees.coherent.nodup
        | loaded _ =>
            exact List.nodup_cons.mpr ⟨isFresh, agrees.coherent.nodup⟩
      · rw [after.view]
        exact agrees.coherent.blank
      · intro other member
        rw [after.view]
        have old :
            other ∈ state.head →
              Allocated sblock (state.view sblock)
                (target.nodes other).inodeNo := by
          intro was
          rw [(gets.keeps isFresh was).2]
          rcases agrees.allocated other was with allocated | ⟨isLoose, _⟩
          · exact allocated
          · cases isLoose
        by_cases was : other ∈ state.head
        · exact Or.inl (old was)
        · refine Or.inr ?_
          have unheld : refs other = 0 := by
            by_contra held
            exact was
              (agrees.counted.listed other (Nat.pos_of_ne_zero held))
          cases gets with
          | found _ _ => exact absurd member was
          | loaded _ =>
              rcases List.mem_cons.mp member with rfl | there
              · exact ⟨rfl, unheld⟩
              · exact absurd there was

/-- `inode_share` of an inode to which there is a reference. -/
theorem Agrees.share
    (agrees : Agrees sblock refs none state)
    (referenced : 0 < refs address) :
    Ensures (fun _ => True) (Inodes.share address) state
      fun result target => Agrees sblock (plus refs result) none target := by
  have raised :
      Ensures (fun _ => True) (Inodes.share address) state
        fun result target => Counted (plus refs result) target :=
    counts_share referenced state agrees.counted
  refine ⟨agrees.coherent.setRc address _, raised, ?_⟩
  intro other member
  refine Or.inl ?_
  have number :
      (Function.update state.nodes address
        { state.nodes address with
          rc := (state.nodes address).rc + 1 } other).inodeNo =
            (state.nodes other).inodeNo :=
    setRc_inodeNo _ _ _ _
  change Allocated sblock (state.view sblock)
    (Function.update state.nodes address _ other).inodeNo
  rw [number]
  rcases agrees.allocated other member with allocated | ⟨isLoose, _⟩
  · exact allocated
  · cases isLoose

/-- `inode_alloc` returns a number which no inode in memory has. -/
theorem Agrees.alloc
    (geometry : Geometry sblock)
    (agrees : Agrees sblock refs none state)
    (type : UInt16) :
    Ensures (fun _ => True) (Inodes.alloc sblock type) state
      fun inodeNo target =>
        Agrees sblock refs none target ∧
          (∀ address ∈ state.head,
            (state.nodes address).inodeNo ≠ inodeNo) ∧
            Allocated sblock (target.view sblock) inodeNo := by
  have spec :
      Ensures (fun _ => True) (inodeAlloc sblock type) state.store _ :=
    ensures_inodeAlloc geometry agrees.coherent.calm (fun _ _ => trivial)
      (Or.inl trivial)
  have settled := agrees.coherent.settled
  unfold Ensures Inodes.alloc Inodes.onStore StateT.run
  dsimp only
  cases returned : inodeAlloc sblock type state.store with
  | error stop => trivial
  | ok pair =>
      rcases pair with ⟨inodeNo, store⟩
      rcases spec.of_run returned with ⟨isType, allocates⟩
      have solid :
          ∀ address ∈ state.head,
            Allocated sblock (state.view sblock)
              (state.nodes address).inodeNo := by
        intro address member
        rcases agrees.allocated address member with solid | ⟨isLoose, _⟩
        · exact solid
        · cases isLoose
      have different :
          ∀ address ∈ state.head,
            (state.nodes address).inodeNo ≠ inodeNo := by
        rintro address member rfl
        exact (solid address member).2.2 allocates.free
      have notAllocated :
          ¬ Allocated sblock (state.view sblock) inodeNo :=
        fun allocated => allocated.2.2 allocates.free
      have viewEq := allocates.becomes.view
      have others :
          ∀ other, other ≠ inodeNo →
            (view sblock store.blocks).entry other =
              (state.view sblock).entry other := by
        intro other isOther
        rw [viewEq]
        exact Function.update_of_ne isOther _ _
      have own :
          (view sblock store.blocks).entry inodeNo =
            { InodeEntry.zero with type := type } := by
        rw [viewEq]
        exact Function.update_self _ _ _
      dsimp only
      refine ⟨⟨⟨⟨?_, rfl, ?_, settled.unique⟩, ?_, agrees.coherent.nodup,
        ?_⟩, ⟨agrees.counted.rc, agrees.counted.listed⟩, ?_⟩, different, ?_⟩
      · exact allocates.becomes.held.trans settled.free
      · intro address member
        have old := settled.listed address member
        exact ⟨old.valid,
          old.entry.trans (others _ (different address member)).symm,
          old.positive, old.below⟩
      · change Owned sblock (view sblock store.blocks)
        rw [viewEq]
        exact owned_withEntry_fresh agrees.coherent.owned
          ⟨fun _ => rfl, rfl⟩ notAllocated
      · intro other free
        change ((view sblock store.blocks).entry other).type = _ at free
        change ((view sblock store.blocks).entry other).numLinks = _ ∧
          Bare ((view sblock store.blocks).entry other)
        by_cases same : other = inodeNo
        · rw [same, own] at free
          exact absurd free isType
        · rw [others other same] at free ⊢
          exact agrees.coherent.blank other free
      · intro address member
        exact Or.inl
          (allocated_of_entry (others _ (different address member))
            (solid address member))
      · refine ⟨allocates.positive, allocates.below, ?_⟩
        change ((view sblock store.blocks).entry inodeNo).type ≠ _
        rw [own]
        exact isType

/-! ## Small programs -/

/-- A change of an entry which owns no block, and `inode_sync`. -/
theorem Agrees.setSync
    {Value : Type}
    (geometry : Geometry sblock)
    (agrees : Agrees sblock refs loose state)
    (referenced : 0 < refs address)
    {change : InodeEntry → InodeEntry}
    (type : ∀ entry, (change entry).type = entry.type)
    (numBytes : ∀ entry, (change entry).numBytes = entry.numBytes)
    (addrs : ∀ entry, (change entry).addrs = entry.addrs)
    (indirect : ∀ entry, (change entry).indirect = entry.indirect)
    {next : TableProgram Value}
    {post : Value → State → Prop}
    (continues :
      ∀ target, Agrees sblock refs loose target →
        Ensures (fun _ => True) next target post) :
    Ensures (fun _ => True)
      (do
        Inodes.setEntry address change
        Inodes.sync sblock address
        next) state post := by
  have member := agrees.listed referenced
  have loaded := agrees.coherent.loaded member (agrees.solid referenced)
  have leaves :=
    leaves_syncEntry geometry agrees.coherent.calm agrees.coherent.owned
      loaded (type _) (numBytes _) (addrs _) (indirect _)
  have works :
      Ensures (fun _ => True)
        (do
          let inode ←
            inodeSync sblock
              { state.nodes address with
                entry := change (state.nodes address).entry } true
          return (inode, ())) state.store
        fun result store =>
          Leaves sblock state.store (state.nodes address) result.1
            store := by
    rw [ensures_bind]
    exact leaves.accepting fun _ _ => trivial
  have changed :=
    @Agrees.changes sblock refs loose state address Unit agrees referenced
      (fun inode => do
        let inode ←
          inodeSync sblock
            { inode with entry := change inode.entry } true
        return (inode, ())) works
  rw [ensures_bind]
  change Ensures (fun _ => True) _
    { state with
      nodes :=
        Function.update state.nodes address
          { state.nodes address with
            entry := change (state.nodes address).entry } } post
  rw [ensures_bind]
  refine Ensures.mono ?_ fun _ target => continues target
  revert changed
  unfold Ensures Inodes.sync Inodes.changes StateT.run
  dsimp only
  rw [Function.update_self]
  simp only [Function.update_idem]
  exact id

/-- `inode_read` and `inode_lookup` leave everything as it is. -/
theorem ensures_reads
    {Value : Type}
    {program : Inode → Program Store Stop Value}
    (readOnly : ∀ inode, ReadOnly (program inode)) :
    Ensures (fun _ => True) (Inodes.reads address program) state
      fun _ target => target = state := by
  have read := readOnly (state.nodes address) state.store
  unfold Ensures StateT.run at read
  unfold Ensures Inodes.reads Inodes.onStore StateT.run
  dsimp only
  revert read
  cases program (state.nodes address) state.store with
  | error stop => exact fun _ => trivial
  | ok result =>
      intro same
      change { state with store := result.2 } = state
      rw [same]

theorem readOnly_lookupFrom
    {console : ConsoleRead}
    {inode : Inode}
    {name after curr : List UInt8}
    {places : List Nat} :
    ReadOnly (lookupFrom sblock console inode name after places curr) := by
  induction places generalizing curr with
  | nil => exact readOnly_pure
  | cons position rest ih =>
      unfold lookupFrom
      refine readOnly_inodeRead.bind ?_
      intro read
      refine readOnly_ite ih ?_
      split
      · exact readOnly_throw
      · exact readOnly_pure
      · exact ih

theorem ensures_lookup
    {frame : Frame}
    {name : List UInt8} :
    Ensures (fun _ => True) (Inodes.lookup sblock env frame address name)
      state fun _ target => target = state := by
  refine ensures_reads fun inode => ?_
  unfold inodeLookup
  exact readOnly_assert.bind fun _ => readOnly_lookupFrom

theorem ensures_assertHeld :
    Ensures (fun _ => True) (Inodes.assertHeld address) state
      fun _ target => target = state := by
  unfold Inodes.assertHeld
  rw [ensures_bind, ensures_get]
  refine ensures_ite ?_ ?_
  · exact fun _ => rfl
  · exact fun _ => trivial

theorem Agrees.beginOp
    (agrees : Agrees sblock refs loose state)
    (rm : Nat)
    (logged : List Nat) :
    Agrees sblock refs loose
      { state with
        store := { state.store with rm := rm, logged := logged } } := by
  have settled := agrees.coherent.settled
  exact ⟨⟨⟨settled.free, rfl, settled.listed, settled.unique⟩,
    agrees.coherent.owned, agrees.coherent.nodup, agrees.coherent.blank⟩,
    ⟨agrees.counted.rc, agrees.counted.listed⟩, agrees.allocated⟩

end Agrees

end FudanOS.Kernel.InodeAgreement
