import FudanOS.Fs.InodeTable

/-!
# Runs of the inode layer

Between two calls every inode in memory agrees with its entry on the disk,
no two of them stand for the same number, and the blocks are owned exactly.
-/

namespace FudanOS.Fs.InodeRuns

open FudanOS.Library.Programs
open FudanOS.Library.Runs
open FudanOS.Fs.Defines
open FudanOS.Fs.BlockBitmap
open FudanOS.Fs.InodeLayout
open FudanOS.Fs.InodeLayer
open FudanOS.Fs.BlockOwnership
open FudanOS.Fs.FileContents
open FudanOS.Fs.InodeSpecs
open FudanOS.Fs.FileSpecs
open FudanOS.Fs.Directory
open FudanOS.Fs.InodeTable

/-- What holds between two calls. -/
structure Consistent (sblock : SuperBlock) (state : State) : Prop where
  free : state.store.held = []
  owned : Owned sblock (state.view sblock)
  loaded :
    ∀ address ∈ state.head,
      Loaded sblock (state.view sblock) (state.nodes address)
  unique :
    ∀ left ∈ state.head, ∀ right ∈ state.head,
      (state.nodes left).inodeNo = (state.nodes right).inodeNo →
        left = right
  nodup : state.head.Nodup

/-- The state after `init_inodes` has read a well-formed disk. -/
structure Formed (sblock : SuperBlock) (state : State) : Prop where
  free : state.store.held = []
  owned : Owned sblock (state.view sblock)
  empty : state.head = []

variable
    {sblock : SuperBlock}
    {console : ConsoleRead}
    {state target : State}

theorem Formed.consistent
    (formed : Formed sblock state) :
    Consistent sblock state := by
  refine ⟨formed.free, formed.owned, ?_, ?_, ?_⟩
  · rw [formed.empty]
    simp
  · rw [formed.empty]
    simp
  · rw [formed.empty]
    exact List.nodup_nil

theorem Consistent.calm
    (consistent : Consistent sblock state) :
    Calm sblock state.store := by
  intro blockNo member
  rw [consistent.free] at member
  simp at member

theorem Loaded.of_entry
    {before after : View}
    {inode : Inode}
    (loaded : Loaded sblock before inode)
    (same : after.entry inode.inodeNo = before.entry inode.inodeNo) :
    Loaded sblock after inode := by
  refine ⟨loaded.valid, loaded.entry.trans same.symm, ?_⟩
  unfold Allocated
  rw [same]
  exact loaded.allocated

/-- The result of a function on the inode at one address. -/
theorem Consistent.onInode
    (consistent : Consistent sblock state)
    {address : Nat}
    (member : address ∈ state.head)
    {result : Inode}
    {store : Store}
    (leaves :
      Leaves sblock state.store (state.nodes address) result store) :
    Consistent sblock
      { state with
        store := store
        nodes := Function.update state.nodes address result } := by
  rcases leaves with ⟨rfl, held, operates⟩
  have loaded := consistent.loaded address member
  have number :
      ∀ other,
        (Function.update state.nodes address
            { state.nodes address with
              entry :=
                (InodeLayout.view sblock store.blocks).entry
                  (state.nodes address).inodeNo }
            other).inodeNo =
          (state.nodes other).inodeNo := by
    intro other
    by_cases same : other = address
    · subst same
      simp
    · simp [same]
  refine ⟨held.trans consistent.free, operates.owned, ?_, ?_,
    consistent.nodup⟩
  · intro other otherMember
    by_cases same : other = address
    · subst same
      simp only [Function.update_self]
      exact ⟨loaded.valid, rfl,
        (operates.allocated_iff _).mpr loaded.allocated⟩
    · simp only [Function.update_of_ne same]
      have different :
          (state.nodes other).inodeNo ≠ (state.nodes address).inodeNo :=
        fun equal =>
          same (consistent.unique other otherMember address member equal)
      exact Loaded.of_entry (consistent.loaded other otherMember)
        (operates.apart.entry _ different)
  · intro left leftMember right rightMember equal
    simp only [number] at equal
    exact consistent.unique left leftMember right rightMember equal

theorem Consistent.setRc
    (consistent : Consistent sblock state)
    (address : Nat)
    (rc : Int) :
    Consistent sblock
      { state with
        nodes :=
          Function.update state.nodes address
            { state.nodes address with rc := rc } } := by
  have sameNode :
      ∀ other,
        ∃ count,
          Function.update state.nodes address
              { state.nodes address with rc := rc } other =
            { state.nodes other with rc := count } := by
    intro other
    by_cases same : other = address
    · subst same
      exact ⟨rc, by simp⟩
    · exact ⟨(state.nodes other).rc, by simp [same]⟩
  refine ⟨consistent.free, consistent.owned, ?_, ?_, consistent.nodup⟩
  · intro other member
    rcases sameNode other with ⟨count, node⟩
    have loaded := consistent.loaded other member
    simp only [node]
    exact ⟨loaded.valid, loaded.entry, loaded.allocated⟩
  · intro left leftMember right rightMember equal
    rcases sameNode left with ⟨leftCount, leftNode⟩
    rcases sameNode right with ⟨rightCount, rightNode⟩
    simp only [leftNode, rightNode] at equal
    exact consistent.unique left leftMember right rightMember equal

/-! ## Clearing and freeing an inode -/

section Clear

variable
    {store : Store}
    {inode : Inode}

theorem bare_clearEntry
    (entry : InodeEntry) :
    Bare (clearEntry entry) := by
  exact ⟨fun _ => rfl, rfl⟩

theorem fileSize_clearEntry
    {start : View}
    {inodeNo : Nat}
    {entry : InodeEntry} :
    fileSize (cleared start inodeNo (clearEntry entry)) inodeNo = 0 := by
  simp [fileSize, cleared, withEntry, clearEntry]

theorem complete_cleared
    {start : View}
    {inodeNo : Nat}
    {entry : InodeEntry}
    (complete : Complete sblock start) :
    Complete sblock (cleared start inodeNo (clearEntry entry)) := by
  refine Apart.cleared.complete complete ?_
  intro _ index below
  rw [fileSize_clearEntry] at below
  omega

/-- `inode_clear` works on its inode. -/
theorem leaves_inodeClear
    (geometry : Geometry sblock)
    (calm : Calm sblock store)
    (owned : Owned sblock (view sblock store.blocks))
    (loaded : Loaded sblock (view sblock store.blocks) inode) :
    Ensures Stop.Exhausted (inodeClear sblock inode) store
      fun result target =>
        Leaves sblock store inode result target ∧
          contents (view sblock target.blocks) inode.inodeNo = [] := by
  have entryEq := loaded.entry
  refine Ensures.mono
    (ensures_inodeClear geometry calm owned loaded.allocated loaded.valid
      (by rw [entryEq]) (by rw [entryEq])) ?_
  rintro result target ⟨rfl, held, viewEq⟩
  have entryAfter :
      (view sblock target.blocks).entry inode.inodeNo =
        clearEntry inode.entry := by
    rw [viewEq]
    simp [cleared, withEntry]
  refine ⟨⟨?_, held, ?_, ?_, ?_, ?_⟩, ?_⟩
  · rw [entryAfter]
  · rw [viewEq]
    exact owned_cleared owned loaded.allocated (bare_clearEntry _)
  · rw [viewEq]
    exact Apart.cleared
  · rw [entryAfter, ← entryEq]
    rfl
  · intro complete
    rw [viewEq]
    exact complete_cleared complete
  · rw [viewEq, contents, fileSize_clearEntry]
    rfl

/-- The entry of an inode which `inode_put` has freed. -/
def freedEntry (entry : InodeEntry) : InodeEntry :=
  clearEntry { entry with type := inodeInvalid }

/-- `inode_put` frees the blocks of the inode, then the inode. -/
theorem ensures_freeInode
    (geometry : Geometry sblock)
    (calm : Calm sblock store)
    (owned : Owned sblock (view sblock store.blocks))
    (loaded : Loaded sblock (view sblock store.blocks) inode) :
    Ensures Stop.Exhausted (freeInode sblock inode) store
      fun result target =>
        result = { inode with entry := freedEntry inode.entry } ∧
          Becomes sblock store target
            (cleared (view sblock store.blocks) inode.inodeNo
              (freedEntry inode.entry)) := by
  have entryEq := loaded.entry
  unfold freeInode
  rw [ensures_bind]
  refine Ensures.mono
    (ensures_inodeClear geometry calm owned ?_ ?_ ?_ ?_) ?_
  · exact loaded.allocated
  · exact loaded.valid
  · simp [entryEq]
  · simp [entryEq]
  rintro cleared_ middle ⟨rfl, becomes⟩
  refine Ensures.mono
    (ensures_inodeSync_write geometry (calm.of_held becomes.held).quiet ?_
      ?_) ?_
  · exact loaded.valid
  · exact loaded.allocated.2.1
  rintro result target ⟨rfl, held, viewEq⟩
  refine ⟨rfl, held.trans becomes.held, ?_⟩
  rw [viewEq, becomes.view]
  simp [cleared, withEntry, freedEntry]

end Clear

/-- The table once a freed inode is off the list. -/
theorem Consistent.freed
    (consistent : Consistent sblock state)
    {address : Nat}
    (member : address ∈ state.head)
    {result : Inode}
    {store : Store}
    (becomes :
      Becomes sblock state.store store
        (cleared (state.view sblock) (state.nodes address).inodeNo
          (freedEntry (state.nodes address).entry))) :
    Consistent sblock
      { store := store
        nodes := Function.update state.nodes address result
        head := state.head.erase address } := by
  have loaded := consistent.loaded address member
  have kept :
      ∀ other ∈ state.head.erase address,
        other ∈ state.head ∧ other ≠ address := by
    intro other member
    have both := (consistent.nodup.mem_erase_iff).mp member
    exact ⟨both.2, both.1⟩
  refine ⟨becomes.held.trans consistent.free, ?_, ?_, ?_,
    consistent.nodup.erase address⟩
  · rw [State.view, becomes.view]
    exact owned_cleared consistent.owned loaded.allocated
      (bare_clearEntry _)
  · intro other otherMember
    rcases kept other otherMember with ⟨was, different⟩
    simp only [Function.update_of_ne different]
    have numbers :
        (state.nodes other).inodeNo ≠ (state.nodes address).inodeNo :=
      fun equal =>
        different (consistent.unique other was address member equal)
    refine Loaded.of_entry (consistent.loaded other was) ?_
    rw [State.view, becomes.view]
    have apart :
        Apart sblock (state.nodes address).inodeNo (state.view sblock)
          (cleared (state.view sblock) (state.nodes address).inodeNo
            (freedEntry (state.nodes address).entry)) :=
      Apart.cleared
    exact apart.entry _ numbers
  · intro left leftMember right rightMember equal
    rcases kept left leftMember with ⟨leftWas, leftDifferent⟩
    rcases kept right rightMember with ⟨rightWas, rightDifferent⟩
    simp only [Function.update_of_ne leftDifferent,
      Function.update_of_ne rightDifferent] at equal
    exact consistent.unique left leftWas right rightWas equal

/-! ## One call -/

theorem onInode_ok
    {address : Nat}
    {program : Inode → Program Store Stop Inode}
    (returned : InodeTable.onInode address program state = .ok target) :
    ∃ result store,
      (program (state.nodes address)).run state.store =
          .ok (result, store) ∧
        target =
          { state with
            store := store
            nodes := Function.update state.nodes address result } := by
  unfold InodeTable.onInode at returned
  split at returned
  · rename_i result store run
    cases returned
    exact ⟨result, store, run, rfl⟩
  · cases returned

theorem onInode_ensures
    (address : Nat)
    (program : Inode → Program Store Stop Inode)
    {accepts : Stop → Prop}
    {post : Inode → Store → Prop}
    (ensures :
      Ensures accepts (program (state.nodes address)) state.store post) :
    match InodeTable.onInode address program state with
    | .ok target => post (target.nodes address) target.store
    | .error stop => accepts stop := by
  unfold Ensures at ensures
  unfold InodeTable.onInode
  split at ensures
  · rename_i result store run
    simpa [run] using ensures
  · rename_i stop run
    simpa [run] using ensures

/-- An inode is written back after a change of fields which own no block. -/
theorem leaves_syncEntry
    (geometry : Geometry sblock)
    {store : Store}
    (calm : Calm sblock store)
    (owned : Owned sblock (view sblock store.blocks))
    {inode : Inode}
    (loaded : Loaded sblock (view sblock store.blocks) inode)
    {entry : InodeEntry}
    (type : entry.type = inode.entry.type)
    (numBytes : entry.numBytes = inode.entry.numBytes)
    (addrs : entry.addrs = inode.entry.addrs)
    (indirect : entry.indirect = inode.entry.indirect) :
    Ensures Stop.Exhausted
      (inodeSync sblock { inode with entry := entry } true) store
      (Leaves sblock store inode) := by
  have entryEq := loaded.entry
  rw [entryEq] at type numBytes addrs indirect
  refine Ensures.mono
    (ensures_inodeSync_write geometry calm.quiet ?_ ?_) ?_
  · exact loaded.valid
  · exact loaded.allocated.2.1
  rintro result target ⟨rfl, held, viewEq⟩
  refine ⟨?_, held, ?_, ?_, ?_, ?_⟩
  · rw [viewEq]
    simp [withEntry]
  · rw [viewEq]
    refine owned_withEntry owned addrs indirect ?_
    rw [type]
  · rw [viewEq]
    exact Apart.withEntry
  · rw [viewEq]
    simp [withEntry, type]
  · intro complete
    rw [viewEq]
    refine Apart.withEntry.complete complete ?_
    intro _ index below
    have inside :
        index * blockSize <
          fileSize (view sblock store.blocks) inode.inodeNo := by
      simpa [fileSize, withEntry, numBytes] using below
    exact hasBlock_withEntry addrs indirect
      (complete _ loaded.allocated index inside)

theorem leaves_setLinks
    (geometry : Geometry sblock)
    (consistent : Consistent sblock state)
    {address : Nat}
    (member : address ∈ state.head)
    (numLinks : UInt16) :
    Ensures Stop.Exhausted
      (setLinks sblock numLinks (state.nodes address)) state.store
      (Leaves sblock state.store (state.nodes address)) :=
  leaves_syncEntry geometry consistent.calm consistent.owned
    (consistent.loaded address member) rfl rfl rfl rfl

theorem Consistent.alloc
    (geometry : Geometry sblock)
    (consistent : Consistent sblock state)
    {type : UInt16}
    {inodeNo : Nat}
    {store : Store}
    (run : (inodeAlloc sblock type).run state.store = .ok (inodeNo, store)) :
    Consistent sblock { state with store := store } := by
  have spec :=
    Ensures.of_run
      (ensures_inodeAlloc geometry consistent.calm (fun _ _ => trivial)
        (Or.inl trivial))
      run
  rcases spec with ⟨-, allocates⟩
  have notAllocated : ¬ Allocated sblock (state.view sblock) inodeNo :=
    fun allocated => allocated.2.2 allocates.free
  refine ⟨allocates.becomes.held.trans consistent.free, ?_, ?_,
    consistent.unique, consistent.nodup⟩
  · rw [State.view, allocates.becomes.view]
    exact owned_withEntry_fresh consistent.owned ⟨fun _ => rfl, rfl⟩
      notAllocated
  · intro address member
    have loaded := consistent.loaded address member
    have different : (state.nodes address).inodeNo ≠ inodeNo := by
      rintro rfl
      exact notAllocated loaded.allocated
    refine Loaded.of_entry loaded ?_
    rw [State.view, allocates.becomes.view]
    exact Function.update_of_ne different _ _

theorem Consistent.get
    (geometry : Geometry sblock)
    (consistent : Consistent sblock state)
    {inodeNo fresh address : Nat}
    (allocated : Allocated sblock (state.view sblock) inodeNo)
    (isFresh : fresh ∉ state.head)
    (returned :
      inodeGet sblock inodeNo fresh state = .ok (address, target)) :
    Consistent sblock target := by
  unfold inodeGet at returned
  split_ifs at returned
  split at returned
  · cases returned
    exact consistent.setRc _ _
  · rename_i absent
    dsimp only at returned
    split at returned
    · rename_i result store run
      cases returned
      have reads :
          Ensures (fun _ => False)
            (inodeSync sblock
              { rc := 1
                inodeNo := inodeNo
                valid := false
                entry := (state.nodes fresh).entry }
              false)
            state.store _ :=
        ensures_inodeSync_read geometry consistent.calm.quiet rfl
          allocated.2.1
      rcases reads.of_run run with ⟨rfl, rfl⟩
      have others :
          ∀ other ∈ state.head,
            other ≠ fresh ∧ (state.nodes other).inodeNo ≠ inodeNo := by
        intro other member
        refine ⟨fun same => isFresh (same ▸ member), ?_⟩
        simpa using List.find?_eq_none.mp absent other member
      refine ⟨consistent.free, consistent.owned, ?_, ?_, ?_⟩
      · intro other member
        rcases List.mem_cons.mp member with rfl | old
        · simp only [Function.update_self]
          exact ⟨rfl, rfl, allocated⟩
        · simp only [Function.update_of_ne (others other old).1]
          exact consistent.loaded other old
      · intro left leftMember right rightMember equal
        rcases List.mem_cons.mp leftMember with rfl | leftOld
        · rcases List.mem_cons.mp rightMember with rfl | rightOld
          · rfl
          · simp only [Function.update_self,
              Function.update_of_ne (others right rightOld).1] at equal
            exact absurd equal.symm (others right rightOld).2
        · rcases List.mem_cons.mp rightMember with rfl | rightOld
          · simp only [Function.update_self,
              Function.update_of_ne (others left leftOld).1] at equal
            exact absurd equal (others left leftOld).2
          · simp only [Function.update_of_ne (others left leftOld).1,
              Function.update_of_ne (others right rightOld).1] at equal
            exact consistent.unique left leftOld right rightOld equal
      · exact List.nodup_cons.mpr ⟨isFresh, consistent.nodup⟩
    · cases returned

/-- `inode_put` of the last reference to an inode without links. -/
theorem Consistent.put_last
    (geometry : Geometry sblock)
    (consistent : Consistent sblock state)
    {address : Nat}
    (member : address ∈ state.head)
    (last : (state.nodes address).rc = 1)
    (unlinked : (state.nodes address).entry.numLinks = 0) :
    match inodePut sblock address state with
    | .ok target =>
        Consistent sblock target ∧
          target.view sblock =
            cleared (state.view sblock) (state.nodes address).inodeNo
              (freedEntry (state.nodes address).entry) ∧
          target.head = state.head.erase address
    | .error stop => stop.Exhausted := by
  have decremented := consistent.setRc address ((state.nodes address).rc - 1)
  have loaded := decremented.loaded address member
  simp only [Function.update_self] at loaded
  have frees :=
    ensures_freeInode geometry consistent.calm consistent.owned loaded
  unfold inodePut
  simp only [last, unlinked]
  rw [if_pos ⟨by decide, trivial⟩]
  unfold InodeTable.onInode
  simp only [Function.update_self]
  unfold Ensures at frees
  rw [last] at frees
  generalize
    (freeInode sblock
      { state.nodes address with rc := 1 - 1 }).run state.store =
        outcome at *
  cases outcome with
  | error stop => exact frees
  | ok result =>
      rcases result with ⟨inode, store⟩
      rcases frees with ⟨-, becomes⟩
      refine ⟨?_, becomes.view, rfl⟩
      simp only [Function.update_idem]
      exact consistent.freed member becomes

/-- The inode which a call works on. -/
def address? : Call → Option Nat
  | .beginOp _ _ => none
  | .alloc _ => none
  | .get _ _ => none
  | .share address => some address
  | .write address _ _ => some address
  | .insert address _ _ _ => some address
  | .remove address _ _ => some address
  | .clear address => some address
  | .put address => some address
  | .setLinks address _ => some address

/-- What a call does to the disk. -/
inductive Changes
    (sblock : SuperBlock)
    (state : State)
    (call : Call) : View → Prop where
  | same : Changes sblock state call (state.view sblock)
  | alloc
      {inodeNo : Nat}
      {type : UInt16}
      (isAlloc : call = .alloc type)
      (free : ¬ Allocated sblock (state.view sblock) inodeNo) :
      Changes sblock state call
        (withEntry (state.view sblock) inodeNo
          { InodeEntry.zero with type := type })
  | operate
      {address : Nat}
      {after : View}
      (isAddress : address? call = some address)
      (operates :
        Operates sblock (state.nodes address).inodeNo (state.view sblock)
          after) :
      Changes sblock state call after
  | freed
      {address : Nat}
      (isPut : call = .put address) :
      Changes sblock state call
        (cleared (state.view sblock) (state.nodes address).inodeNo
          (freedEntry (state.nodes address).entry))

/-- A function which works on its inode keeps the table consistent. -/
theorem Consistent.operate
    (consistent : Consistent sblock state)
    {address : Nat}
    (member : address ∈ state.head)
    {call : Call}
    (isAddress : address? call = some address)
    {program : Inode → Program Store Stop Inode}
    (returned : InodeTable.onInode address program state = .ok target)
    (works :
      Ensures (fun _ => True) (program (state.nodes address)) state.store
        (Leaves sblock state.store (state.nodes address))) :
    Consistent sblock target ∧
      Changes sblock state call (target.view sblock) := by
  rcases onInode_ok returned with ⟨result, store, run, rfl⟩
  have leaves := works.of_run run
  exact ⟨consistent.onInode member leaves,
    Changes.operate isAddress leaves.2.2⟩

/-- A call which returns keeps the table consistent. -/
theorem step_keeps
    (geometry : Geometry sblock)
    (consistent : Consistent sblock state)
    {call : Call}
    (allowed : Allowed sblock state call)
    (returned : step sblock console state call = .ok target) :
    Consistent sblock target ∧
      Changes sblock state call (target.view sblock) := by
  cases call with
  | beginOp logged rm =>
      cases returned
      refine ⟨?_, Changes.same⟩
      exact ⟨consistent.free, consistent.owned, consistent.loaded,
        consistent.unique, consistent.nodup⟩
  | alloc type =>
      simp only [step] at returned
      split at returned
      · rename_i inodeNo store run
        cases returned
        refine ⟨consistent.alloc geometry run, ?_⟩
        have spec :=
          Ensures.of_run
            (ensures_inodeAlloc geometry consistent.calm
              (fun _ _ => trivial) (Or.inl trivial))
            run
        have viewEq := spec.2.becomes.view
        rw [State.view, viewEq]
        exact Changes.alloc rfl fun allocated =>
          allocated.2.2 spec.2.free
      · cases returned
  | get inodeNo fresh =>
      simp only [step] at returned
      split at returned
      · rename_i address middle run
        cases returned
        refine ⟨consistent.get geometry allowed.1 allowed.2 run, ?_⟩
        have sameView : target.view sblock = state.view sblock := by
          unfold inodeGet at run
          split_ifs at run
          split at run
          · cases run
            rfl
          · dsimp only at run
            split at run
            · rename_i result store synced
              cases run
              have reads :
                  Ensures (fun _ => False)
                    (inodeSync sblock
                      { rc := 1
                        inodeNo := inodeNo
                        valid := false
                        entry := (state.nodes fresh).entry }
                      false)
                    state.store _ :=
                ensures_inodeSync_read geometry consistent.calm.quiet rfl
                  allowed.1.2.1
              rcases reads.of_run synced with ⟨-, rfl⟩
              rfl
            · cases run
        rw [sameView]
        exact Changes.same
      · cases returned
  | share address =>
      cases returned
      exact ⟨consistent.setRc _ _, Changes.same⟩
  | write address src offset =>
      simp only [step] at returned
      refine consistent.operate allowed rfl returned ?_
      rw [ensures_map]
      exact leaves_inodeWrite geometry consistent.calm consistent.owned
        (consistent.loaded address allowed) src offset
  | insert address frame name inodeNo =>
      simp only [step] at returned
      refine consistent.operate allowed rfl returned ?_
      rw [ensures_map]
      exact leaves_inodeInsert geometry consistent.calm consistent.owned
        (consistent.loaded address allowed) frame name inodeNo
  | remove address frame index =>
      simp only [step] at returned
      refine consistent.operate allowed rfl returned ?_
      exact leaves_inodeRemove geometry consistent.calm consistent.owned
        (consistent.loaded address allowed) frame index
  | clear address =>
      simp only [step] at returned
      refine consistent.operate allowed rfl returned ?_
      have clears :=
        leaves_inodeClear geometry consistent.calm consistent.owned
          (consistent.loaded address allowed)
      refine (clears.mono ?_).accepting fun _ _ => trivial
      intro result store both
      exact both.1
  | put address =>
      by_cases last :
          (state.nodes address).rc = 1 ∧
            (state.nodes address).entry.numLinks = 0
      · have frees :=
          consistent.put_last geometry allowed last.1 last.2
        simp only [step] at returned
        rw [returned] at frees
        rcases frees with ⟨after, viewEq, -⟩
        refine ⟨after, ?_⟩
        rw [viewEq]
        exact Changes.freed rfl
      · simp only [step, inodePut] at returned
        rw [if_neg] at returned
        · cases returned
          exact ⟨consistent.setRc _ _, Changes.same⟩
        · rintro ⟨zero, unlinked⟩
          exact last ⟨by omega, unlinked⟩
  | setLinks address numLinks =>
      simp only [step] at returned
      refine consistent.operate allowed rfl returned ?_
      have links := leaves_setLinks geometry consistent allowed numLinks
      exact links.accepting fun _ _ => trivial

theorem run_keeps
    (geometry : Geometry sblock)
    {start finish : State}
    {calls : List Call}
    (formed : Formed sblock start)
    (run :
      Run (Takes (step sblock console)) (Allowed sblock) start calls
        finish) :
    Consistent sblock finish := by
  refine run.invariant formed.consistent ?_
  intro source call target consistent allowed taken
  exact (step_keeps geometry consistent allowed taken).1

/--
After every run of calls the blocks are owned exactly, and the put which drops
the last reference to an inode without links frees what that inode owned.
-/
theorem blocks_owned_exactly
    (geometry : Geometry sblock)
    {start finish : State}
    {calls : List Call}
    (formed : Formed sblock start)
    (run :
      Run (Takes (step sblock console)) (Allowed sblock) start calls
        finish) :
    Owned sblock (finish.view sblock) ∧
      ∀ address ∈ finish.head,
        (finish.nodes address).rc = 1 →
        (finish.nodes address).entry.numLinks = 0 →
          match step sblock console finish (.put address) with
          | .ok target =>
              ¬ Allocated sblock (target.view sblock)
                  (finish.nodes address).inodeNo ∧
                ∀ blockNo, IsData sblock blockNo →
                  ((target.view sblock).used blockNo = true ↔
                    (finish.view sblock).used blockNo = true ∧
                      ∀ slot,
                        stored (finish.view sblock)
                            (finish.nodes address).inodeNo slot ≠
                          blockNo)
          | .error stop => stop.Exhausted := by
  have consistent := run_keeps geometry formed run
  refine ⟨consistent.owned, ?_⟩
  intro address member last unlinked
  have frees := consistent.put_last geometry member last unlinked
  simp only [step]
  generalize inodePut sblock address finish = outcome at *
  cases outcome with
  | error stop => exact frees
  | ok target =>
      rcases frees with ⟨-, viewEq, -⟩
      simp only [viewEq]
      refine ⟨?_, ?_⟩
      · rintro ⟨-, -, valid⟩
        simp [cleared, withEntry, freedEntry, clearEntry] at valid
      · intro blockNo isData
        have positive : blockNo ≠ 0 := by
          rintro rfl
          exact consistent.owned.exact.positive isData
        change usedWithout _ _ slots blockNo = true ↔ _
        rw [usedWithout, Bool.and_eq_true, Bool.not_eq_true',
          ← Bool.not_eq_true, storedIn_iff]
        refine and_congr_right fun _ => ?_
        constructor
        · intro absent slot same
          exact absent
            ⟨slot, mem_slots slot, by rwa [same], same⟩
        · rintro absent ⟨slot, -, -, same⟩
          exact absent slot same

/-! ## A small disk -/

instance (sblock : SuperBlock) (state : State) (call : Call) :
    Decidable (Allowed sblock state call) :=
  match call with
  | .beginOp _ _ => inferInstanceAs (Decidable True)
  | .alloc _ => inferInstanceAs (Decidable True)
  | .get _ _ => inferInstanceAs (Decidable (_ ∧ _))
  | .share _ => inferInstanceAs (Decidable (_ ∈ _))
  | .write _ _ _ => inferInstanceAs (Decidable (_ ∈ _))
  | .insert _ _ _ _ => inferInstanceAs (Decidable (_ ∈ _))
  | .remove _ _ _ => inferInstanceAs (Decidable (_ ∈ _))
  | .clear _ => inferInstanceAs (Decidable (_ ∈ _))
  | .put _ => inferInstanceAs (Decidable (_ ∈ _))
  | .setLinks _ _ => inferInstanceAs (Decidable (_ ∈ _))

/-- Four data blocks and two inodes. -/
def smallDisk : SuperBlock where
  numBlocks := 8
  numDataBlocks := 4
  numInodes := 3
  numLogBlocks := 1
  logStart := 1
  inodeStart := 2
  bitmapStart := 3

/-- The small disk without any inode. -/
def emptyDisk : State where
  store :=
    { blocks := fun blockNo index =>
        if blockNo = 3 ∧ index.val = 0 then 15 else 0
      held := []
      logged := []
      rm := 0 }
  nodes := fun _ => ⟨0, 0, false, InodeEntry.zero⟩
  head := []

/-- A console from which nothing is read. -/
def silent : ConsoleRead := fun _ => (0, [])

/-- A file is created at the address 7 and three bytes are written. -/
def oneFile : List Call :=
  [.alloc 2, .get 1 7, .write 7 [1, 2, 3] 0]

theorem geometry_smallDisk : Geometry smallDisk := by
  constructor <;> decide

theorem formed_emptyDisk : Formed smallDisk emptyDisk := by
  have noInode :
      ∀ inodeNo < 3,
        ¬ Allocated smallDisk (emptyDisk.view smallDisk) inodeNo := by
    decide +kernel
  have none :
      ∀ inodeNo,
        ¬ Allocated smallDisk (emptyDisk.view smallDisk) inodeNo := by
    intro inodeNo allocated
    exact noInode inodeNo allocated.2.1 allocated
  have unmarked :
      ∀ blockNo < 8, IsData smallDisk blockNo →
        (emptyDisk.view smallDisk).used blockNo = false := by
    decide +kernel
  refine ⟨rfl, ⟨⟨by decide, ?_, ?_, ?_⟩, by decide +kernel⟩, rfl⟩
  · intro left _ live
    exact absurd live (none left.1)
  · intro key live
    exact absurd live (none key.1)
  · intro blockNo isData
    rw [unmarked blockNo isData.2 isData]
    constructor
    · intro marked
      cases marked
    · rintro ⟨key, live, -⟩
      exact absurd live (none key.1)

theorem blocks_owned_exactly_one_file :
    ∃ finish,
      Run (Takes (step smallDisk silent)) (Allowed smallDisk) emptyDisk
          oneFile finish ∧
        (finish.view smallDisk).used 4 = true ∧
        Owned smallDisk (finish.view smallDisk) := by
  have computed :
      ((executeChecked (step smallDisk silent)
        (fun state call => decide (Allowed smallDisk state call))
        emptyDisk oneFile).map
          fun state => (state.view smallDisk).used 4) = some true := by
    decide +kernel
  rcases Option.map_eq_some_iff.mp computed with ⟨finish, executed, marked⟩
  have run :
      Run (Takes (step smallDisk silent)) (Allowed smallDisk) emptyDisk
        oneFile finish :=
    Run.of_executeChecked (fun _ _ => of_decide_eq_true) executed
  exact ⟨finish, run, marked,
    (blocks_owned_exactly geometry_smallDisk formed_emptyDisk run).1⟩

end FudanOS.Fs.InodeRuns
