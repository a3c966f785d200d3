import FudanOS.Fs.InodeRuns

/-!
# Files as byte arrays

Beside a run of writes and clears stands a record of what each file should
be, which a write splices and a clear empties.  The bytes on the disk are
those of the record, and `inode_read` returns them.
-/

namespace FudanOS.Fs.ByteArrays

open FudanOS.Library.Programs
open FudanOS.Library.Runs
open FudanOS.Fs.Defines
open FudanOS.Fs.BlockBitmap
open FudanOS.Fs.InodeLayout
open FudanOS.Fs.InodeLayer
open FudanOS.Fs.BlockOwnership
open FudanOS.Fs.FileContents
open FudanOS.Fs.InodeSpecs
open FudanOS.Fs.FileSpecs
open FudanOS.Fs.Directory
open FudanOS.Fs.InodeTable
open FudanOS.Fs.InodeRuns

/-- What each file should contain. -/
abbrev Files := Nat → List UInt8

/-- What a call does to the files. -/
def record (state : State) (files : Files) : Call → Files
  | .write address src offset =>
      let inode := state.nodes address
      if inode.entry.type = inodeDevice then
        files
      else
        Function.update files inode.inodeNo
          (splice (files inode.inodeNo) offset src)
  | .clear address =>
      Function.update files (state.nodes address).inodeNo []
  | _ => files

/-- The inode layer and the record take a call together. -/
def Recorded
    (sblock : SuperBlock)
    (console : ConsoleRead)
    (source : State × Files)
    (call : Call)
    (target : State × Files) : Prop :=
  step sblock console source.1 call = .ok target.1 ∧
    target.2 = record source.1 source.2 call

/-- Writes within their preconditions, clears, and getting at inodes. -/
def DataCall (state : State) : Call → Prop
  | .write address src offset =>
      offset ≤ (state.nodes address).entry.numBytes.toNat ∧
        offset + src.length ≤ inodeMaxBytes
  | .clear _ => True
  | .beginOp _ _ => True
  | .get _ _ => True
  | .share _ => True
  | _ => False

/-- The table agrees with the disk, and every file has all its blocks. -/
structure WellFormed (sblock : SuperBlock) (state : State) : Prop where
  consistent : Consistent sblock state
  complete : Complete sblock (state.view sblock)

variable
    {sblock : SuperBlock}
    {console : ConsoleRead}
    {state target : State}

theorem Changes.complete
    {call : Call}
    {after : View}
    (changes : Changes sblock state call after)
    (complete : Complete sblock (state.view sblock)) :
    Complete sblock after := by
  cases changes with
  | same => exact complete
  | alloc _ free =>
      refine Apart.withEntry.complete complete ?_
      intro _ index below
      simp [fileSize, withEntry, InodeEntry.zero] at below
  | operate _ operates => exact operates.complete complete
  | freed _ => exact complete_cleared complete

/-- A call changes no file but that of its inode. -/
theorem Changes.contents_eq
    {call : Call}
    {after : View}
    (changes : Changes sblock state call after)
    {other : Nat}
    (allocated : Allocated sblock (state.view sblock) other)
    (elsewhere :
      ∀ address, address? call = some address →
        (state.nodes address).inodeNo ≠ other) :
    contents after other = contents (state.view sblock) other := by
  cases changes with
  | same => rfl
  | @alloc inodeNo type isAlloc free =>
      have different : other ≠ inodeNo := by
        rintro rfl
        exact free allocated
      exact Apart.withEntry.contents_eq different allocated
  | operate isAddress operates =>
      exact operates.apart.contents_eq (elsewhere _ isAddress).symm allocated
  | @freed address isPut =>
      have isAddress : address? call = some address := by
        rw [isPut]
        rfl
      exact Apart.cleared.contents_eq (elsewhere _ isAddress).symm allocated

theorem WellFormed.step
    (geometry : Geometry sblock)
    (formed : WellFormed sblock state)
    {call : Call}
    (allowed : Allowed sblock state call)
    (returned : InodeTable.step sblock console state call = .ok target) :
    WellFormed sblock target := by
  rcases step_keeps geometry formed.consistent allowed returned with
    ⟨consistent, changes⟩
  exact ⟨consistent, Changes.complete changes formed.complete⟩

theorem fileSize_loaded
    (consistent : Consistent sblock state)
    {address : Nat}
    (member : address ∈ state.head) :
    (state.nodes address).entry.numBytes.toNat =
      fileSize (state.view sblock) (state.nodes address).inodeNo := by
  rw [(consistent.loaded address member).entry]
  rfl

/-! ## One call against the record -/

/-- A write within its preconditions leaves the splice. -/
theorem write_contents
    (console : ConsoleRead)
    (geometry : Geometry sblock)
    (consistent : Consistent sblock state)
    {address : Nat}
    (member : address ∈ state.head)
    (notDevice : (state.nodes address).entry.type ≠ inodeDevice)
    {src : List UInt8}
    {offset : Nat}
    (inside : offset ≤ (state.nodes address).entry.numBytes.toNat)
    (fits : offset + src.length ≤ inodeMaxBytes) :
    match InodeTable.step sblock console state (.write address src offset) with
    | .ok target =>
        contents (target.view sblock) (state.nodes address).inodeNo =
          splice
            (contents (state.view sblock) (state.nodes address).inodeNo)
            offset src
    | .error stop => stop.Exhausted := by
  rw [fileSize_loaded consistent member] at inside
  have wraps :
      (offset + src.length) % usizeModulus = offset + src.length :=
    Nat.mod_eq_of_lt (Nat.lt_of_le_of_lt fits (by decide))
  have writes :
      Ensures Stop.Exhausted
        (Prod.fst <$> inodeWrite sblock (state.nodes address) src offset)
        state.store fun _ store =>
          contents (view sblock store.blocks)
              (state.nodes address).inodeNo =
            splice
              (contents (state.view sblock) (state.nodes address).inodeNo)
              offset src := by
    rw [ensures_map]
    refine Ensures.mono
      (ensures_inodeWrite geometry consistent.calm consistent.owned
        (consistent.loaded address member) notDevice (fun _ same => same)
        (Or.inr ⟨inside, fits⟩)) ?_
    rintro result store ⟨-, -, -, -, -, -, writes⟩
    rw [wraps] at writes
    exact writes.contents_eq inside
  exact onInode_ensures address
    (fun inode => Prod.fst <$> inodeWrite sblock inode src offset) writes

theorem clear_contents
    (console : ConsoleRead)
    (geometry : Geometry sblock)
    (consistent : Consistent sblock state)
    {address : Nat}
    (member : address ∈ state.head) :
    match InodeTable.step sblock console state (.clear address) with
    | .ok target =>
        contents (target.view sblock) (state.nodes address).inodeNo = []
    | .error stop => stop.Exhausted := by
  have clears :=
    leaves_inodeClear geometry consistent.calm consistent.owned
      (consistent.loaded address member)
  exact onInode_ensures address (inodeClear sblock)
    (clears.mono fun _ _ both => both.2)

theorem write_device
    {address : Nat}
    (device : (state.nodes address).entry.type = inodeDevice)
    {src : List UInt8}
    {offset : Nat}
    (returned :
      InodeTable.step sblock console state (.write address src offset) =
        .ok target) :
    target.view sblock = state.view sblock := by
  simp only [InodeTable.step] at returned
  rcases onInode_ok returned with ⟨result, store, run, rfl⟩
  have unchanged :
      Ensures (fun _ => False)
        (Prod.fst <$> inodeWrite sblock (state.nodes address) src offset)
        state.store fun _ store => store = state.store := by
    rw [ensures_map, inodeWrite, if_pos device, ensures_pure]
  have same : store = state.store := unchanged.of_run run
  rw [State.view, same]
  rfl

theorem Changes.allocated_iff
    {call : Call}
    {after : View}
    (changes : Changes sblock state call after)
    (data : DataCall state call)
    (other : Nat) :
    Allocated sblock after other ↔
      Allocated sblock (state.view sblock) other := by
  cases changes with
  | same => exact Iff.rfl
  | alloc isAlloc free =>
      subst isAlloc
      exact absurd data id
  | operate _ operates => exact operates.allocated_iff other
  | freed isPut =>
      subst isPut
      exact absurd data id

/-- The record and the disk agree on the allocated inodes. -/
def Agrees (sblock : SuperBlock) (pair : State × Files) : Prop :=
  WellFormed sblock pair.1 ∧
    ∀ inodeNo, Allocated sblock (pair.1.view sblock) inodeNo →
      pair.2 inodeNo = contents (pair.1.view sblock) inodeNo

/-- What a data call leaves is what the record says. -/
theorem contents_record
    (geometry : Geometry sblock)
    {files : Files}
    (agrees : Agrees sblock (state, files))
    {call : Call}
    (allowed : Allowed sblock state call)
    (data : DataCall state call)
    (returned : InodeTable.step sblock console state call = .ok target)
    {address : Nat}
    (isAddress : address? call = some address) :
    record state files call (state.nodes address).inodeNo =
      contents (target.view sblock) (state.nodes address).inodeNo := by
  have consistent := agrees.1.consistent
  have known :
      address ∈ state.head →
        files (state.nodes address).inodeNo =
          contents (state.view sblock) (state.nodes address).inodeNo := by
    intro member
    exact agrees.2 _ (consistent.loaded address member).allocated
  cases call with
  | write place src offset =>
      cases isAddress
      simp only [record]
      split_ifs with device
      · rw [write_device device returned]
        exact known allowed
      · have writes :=
          write_contents console geometry consistent allowed
            device data.1 data.2
        rw [returned] at writes
        rw [Function.update_self, known allowed]
        exact writes.symm
  | clear place =>
      cases isAddress
      have clears :=
        clear_contents console geometry consistent allowed
      rw [returned] at clears
      simp only [record, Function.update_self]
      exact clears.symm
  | share place =>
      cases isAddress
      cases returned
      exact known allowed
  | beginOp logged rm => cases isAddress
  | get inodeNo fresh => cases isAddress
  | alloc type => exact absurd data id
  | insert place frame name inodeNo => exact absurd data id
  | remove place frame index => exact absurd data id
  | put place => exact absurd data id
  | setLinks place numLinks => exact absurd data id

theorem record_elsewhere
    {files : Files}
    {call : Call}
    {other : Nat}
    (elsewhere :
      ∀ address, address? call = some address →
        (state.nodes address).inodeNo ≠ other) :
    record state files call other = files other := by
  cases call with
  | write address src offset =>
      simp only [record]
      split_ifs
      · rfl
      · exact Function.update_of_ne (elsewhere address rfl).symm _ _
  | clear address =>
      exact Function.update_of_ne (elsewhere address rfl).symm _ _
  | _ => rfl

theorem agrees_step
    (geometry : Geometry sblock)
    {source after : State × Files}
    {call : Call}
    (agrees : Agrees sblock source)
    (allowed : Allowed sblock source.1 call)
    (data : DataCall source.1 call)
    (taken : Recorded sblock console source call after) :
    Agrees sblock after := by
  rcases source with ⟨state, files⟩
  rcases after with ⟨target, later⟩
  rcases taken with ⟨returned, recorded⟩
  simp only at returned recorded allowed data
  rcases step_keeps geometry agrees.1.consistent allowed returned with
    ⟨-, changes⟩
  refine ⟨agrees.1.step geometry allowed returned, ?_⟩
  intro inodeNo allocated
  have before := (Changes.allocated_iff changes data inodeNo).mp allocated
  subst recorded
  by_cases here :
      ∃ address, address? call = some address ∧
        (state.nodes address).inodeNo = inodeNo
  · rcases here with ⟨address, isAddress, rfl⟩
    exact contents_record geometry agrees allowed data returned isAddress
  · have elsewhere :
        ∀ address, address? call = some address →
          (state.nodes address).inodeNo ≠ inodeNo :=
      fun address isAddress same => here ⟨address, isAddress, same⟩
    simp only
    rw [record_elsewhere elsewhere,
      Changes.contents_eq changes before elsewhere]
    exact agrees.2 inodeNo before

theorem agrees_run
    (geometry : Geometry sblock)
    {start finish : State}
    {files : Files}
    {calls : List Call}
    (formed : WellFormed sblock start)
    (run :
      Run (Recorded sblock console)
        (fun pair call =>
          Allowed sblock pair.1 call ∧ DataCall pair.1 call)
        (start, contents (start.view sblock)) calls (finish, files)) :
    Agrees sblock (finish, files) := by
  refine run.invariant ⟨formed, fun _ _ => rfl⟩ ?_
  intro source call target agrees allowed taken
  exact agrees_step geometry agrees allowed.1 allowed.2 taken

/-! ## Reading the record back -/

/--
What a read should do: it returns the bytes of the array, and it returns even
if the thread holds block 0, so it never touches that block.
-/
def Reads
    (sblock : SuperBlock)
    (console : ConsoleRead)
    (state : State)
    (file : List UInt8)
    (address offset count : Nat) : Prop :=
  Ensures (fun _ => False)
    (inodeRead sblock console (state.nodes address) offset count)
    { state.store with held := [0] }
    fun result target =>
      result.1 = min count (file.length - offset) ∧
        result.2 = (file.drop offset).take count ∧
        target = { state.store with held := [0] }

theorem reads_of_agrees
    (console : ConsoleRead)
    (geometry : Geometry sblock)
    {files : Files}
    (agrees : Agrees sblock (state, files))
    {address : Nat}
    (member : address ∈ state.head)
    (notDevice : (state.nodes address).entry.type ≠ inodeDevice)
    {offset count : Nat}
    (inside : offset ≤ (state.nodes address).entry.numBytes.toNat)
    (fits : offset + count < usizeModulus) :
    Reads sblock console state (files (state.nodes address).inodeNo)
      address offset count := by
  have consistent := agrees.1.consistent
  have loaded := consistent.loaded address member
  rw [fileSize_loaded consistent member] at inside
  have calm : Calm sblock { state.store with held := [0] } := by
    intro blockNo held
    rw [List.mem_singleton.mp held]
    exact geometry.boot
  have owned :
      Owned sblock
        (view sblock { state.store with held := [0] }.blocks) :=
    consistent.owned
  have reads :
      Ensures (fun _ => False)
        (inodeRead sblock console (state.nodes address) offset count)
        { state.store with held := [0] } _ :=
    ensures_inodeRead geometry calm owned loaded
      (agrees.1.complete _ loaded.allocated) console notDevice inside fits
  refine reads.mono ?_
  rintro result target ⟨number, bytes, same⟩
  have known :
      files (state.nodes address).inodeNo =
        contents (state.view sblock) (state.nodes address).inodeNo :=
    agrees.2 _ loaded.allocated
  rw [known]
  refine ⟨?_, bytes, same⟩
  rw [number, length_contents]
  rfl

/-- Within their preconditions the calls stop only when space runs out. -/
theorem data_call_returns
    (console : ConsoleRead)
    (geometry : Geometry sblock)
    (consistent : Consistent sblock state)
    {call : Call}
    (allowed : Allowed sblock state call)
    (data : DataCall state call) :
    match step sblock console state call with
    | .ok _ => True
    | .error stop => stop.Exhausted := by
  cases call with
  | write address src offset =>
      by_cases device : (state.nodes address).entry.type = inodeDevice
      · simp only [step, onInode, inodeWrite, if_pos device]
        trivial
      · have writes :=
          write_contents console geometry consistent allowed device data.1
            data.2
        generalize
          step sblock console state (.write address src offset) =
            outcome at *
        cases outcome with
        | ok target => trivial
        | error stop => exact writes
  | clear address =>
      have clears := clear_contents console geometry consistent allowed
      generalize
        step sblock console state (.clear address) = outcome at *
      cases outcome with
      | ok target => trivial
      | error stop => exact clears
  | get inodeNo fresh =>
      rcases allowed with ⟨allocated, isFresh⟩
      have inRange :
          ¬ (inodeNo = 0 ∨ sblock.numInodes.toNat ≤ inodeNo) := by
        have positive := allocated.1
        have below := allocated.2.1
        omega
      simp only [step, inodeGet, if_neg inRange]
      cases
        state.head.find? fun address =>
          (state.nodes address).inodeNo == inodeNo
      with
      | some address => trivial
      | none =>
          have reads :
              Ensures (fun _ => False)
                (inodeSync sblock
                  { rc := 1
                    inodeNo := inodeNo
                    valid := false
                    entry := (state.nodes fresh).entry }
                  false)
                state.store _ :=
            ensures_inodeSync_read geometry consistent.calm.quiet rfl
              allocated.2.1
          rcases reads.returns with ⟨inode, store, synced, -⟩
          simp only [synced]
  | beginOp logged rm => trivial
  | share address => trivial
  | alloc type => exact absurd data id
  | insert address frame name inodeNo => exact absurd data id
  | remove address frame index => exact absurd data id
  | put address => exact absurd data id
  | setLinks address numLinks => exact absurd data id

/--
Files are byte arrays.  After every run of writes and clears the files are
those of the record, a read returns the bytes of the record as long as its
range does not wrap, and no call changes the file of another inode.
-/
theorem files_are_byte_arrays
    (geometry : Geometry sblock)
    {start finish : State}
    {files : Files}
    {calls : List Call}
    (formed : WellFormed sblock start)
    (run :
      Run (Recorded sblock console)
        (fun pair call =>
          Allowed sblock pair.1 call ∧ DataCall pair.1 call)
        (start, contents (start.view sblock)) calls (finish, files)) :
    (∀ address ∈ finish.head,
      (finish.nodes address).entry.type ≠ inodeDevice →
        ∀ offset count,
          offset ≤ (finish.nodes address).entry.numBytes.toNat →
          offset + count < usizeModulus →
            Reads sblock console finish
              (files (finish.nodes address).inodeNo) address offset
              count) ∧
    (∀ address ∈ finish.head,
      (finish.nodes address).entry.numBytes.toNat =
        (files (finish.nodes address).inodeNo).length) ∧
    (∀ call, Allowed sblock finish call → DataCall finish call →
      match step sblock console finish call with
      | .ok _ => True
      | .error stop => stop.Exhausted) ∧
    ∀ call target, Allowed sblock finish call →
      step sblock console finish call = .ok target →
        ∀ other, Allocated sblock (finish.view sblock) other →
          (∀ address, address? call = some address →
            (finish.nodes address).inodeNo ≠ other) →
          contents (target.view sblock) other = files other := by
  have agrees := agrees_run geometry formed run
  have consistent := agrees.1.consistent
  refine ⟨?_, ?_, ?_, ?_⟩
  · intro address member notDevice offset count inside fits
    exact reads_of_agrees console geometry agrees member notDevice inside
      fits
  · intro address member
    have known :
        files (finish.nodes address).inodeNo =
          contents (finish.view sblock) (finish.nodes address).inodeNo :=
      agrees.2 _ (consistent.loaded address member).allocated
    rw [known, length_contents]
    exact fileSize_loaded consistent member
  · intro call allowed data
    exact data_call_returns console geometry consistent allowed data
  · intro call target allowed returned other allocated elsewhere
    have changes :=
      (step_keeps geometry consistent allowed returned).2
    rw [Changes.contents_eq changes allocated elsewhere]
    exact (agrees.2 other allocated).symm

/-! ## The small disk with one file -/

theorem wellFormed_emptyDisk : WellFormed smallDisk emptyDisk := by
  refine ⟨formed_emptyDisk.consistent, ?_⟩
  intro inodeNo allocated
  have none :
      ∀ inodeNo < 3,
        ¬ Allocated smallDisk (emptyDisk.view smallDisk) inodeNo := by
    decide +kernel
  exact absurd allocated (none inodeNo allocated.2.1)

/-- The address 7 holds a regular file of this size. -/
def HasFile (state : State) (size : UInt32) : Prop :=
  state.head = [7] ∧ (state.nodes 7).entry.type = inodeRegular ∧
    (state.nodes 7).entry.numBytes = size

instance (state : State) (size : UInt32) :
    Decidable (HasFile state size) :=
  inferInstanceAs (Decidable (_ ∧ _ ∧ _))

/-- The calls which create one file, and a write beyond its end. -/
theorem exists_oneFile :
    ∃ state target,
      WellFormed smallDisk state ∧ HasFile state 3 ∧
        step smallDisk silent state (.write 7 [9, 8] 2) = .ok target ∧
        HasFile target 4 := by
  have computed :
      ((executeChecked (step smallDisk silent)
        (fun state call => decide (Allowed smallDisk state call))
        emptyDisk oneFile).map
          fun state =>
            decide (HasFile state 3) &&
              reaches (step smallDisk silent) state [.write 7 [9, 8] 2]
                fun target => decide (HasFile target 4)) = some true := by
    decide +kernel
  rcases Option.map_eq_some_iff.mp computed with ⟨state, executed, facts⟩
  have run :
      Run (Takes (step smallDisk silent)) (Allowed smallDisk) emptyDisk
        oneFile state :=
    Run.of_executeChecked (fun _ _ => of_decide_eq_true) executed
  rcases Bool.and_eq_true_iff.mp facts with ⟨here, reached⟩
  rcases exists_of_reaches reached with ⟨target, wrote, later⟩
  refine ⟨state, target, ?_, of_decide_eq_true here, ?_,
    of_decide_eq_true later⟩
  · refine run.invariant wellFormed_emptyDisk ?_
    intro source call target formed allowed taken
    exact formed.step geometry_smallDisk allowed taken
  · simp only [execute] at wrote
    split at wrote
    · rename_i middle returned
      cases wrote
      exact returned
    · cases wrote

theorem files_are_byte_arrays_one_file :
    ∃ state target files,
      Recorded smallDisk silent
          (state, contents (state.view smallDisk))
          (.write 7 [9, 8] 2) (target, files) ∧
        HasFile target 4 ∧
        Reads smallDisk silent target (files (target.nodes 7).inodeNo) 7 1
          5 := by
  rcases exists_oneFile with ⟨state, target, formed, here, wrote, later⟩
  have recorded :
      Recorded smallDisk silent
        (state, contents (state.view smallDisk)) (.write 7 [9, 8] 2)
        (target,
          record state (contents (state.view smallDisk))
            (.write 7 [9, 8] 2)) :=
    ⟨wrote, rfl⟩
  have run :
      Run (Recorded smallDisk silent)
        (fun pair call =>
          Allowed smallDisk pair.1 call ∧ DataCall pair.1 call)
        (state, contents (state.view smallDisk)) [.write 7 [9, 8] 2]
        (target,
          record state (contents (state.view smallDisk))
            (.write 7 [9, 8] 2)) := by
    refine Run.cons ⟨?_, ?_, by decide⟩ recorded Run.nil
    · change 7 ∈ state.head
      rw [here.1]
      decide
    · change 2 ≤ (state.nodes 7).entry.numBytes.toNat
      rw [here.2.2]
      decide
  have reads :=
    (files_are_byte_arrays geometry_smallDisk formed run).1 7
      (by rw [later.1]; decide) (by rw [later.2.1]; decide) 1 5
      (by rw [later.2.2]; decide) (by decide)
  exact ⟨state, target, _, recorded, later, reads⟩

/-- `count + offset` wraps, and the last assertion of `inode_read` fails. -/
theorem wrapped_read_not_returned :
    ¬ ∀ (sblock : SuperBlock) (console : ConsoleRead) (state : State),
        Geometry sblock → WellFormed sblock state →
          ∀ address ∈ state.head,
            (state.nodes address).entry.type ≠ inodeDevice →
              ∀ offset count,
                offset ≤ (state.nodes address).entry.numBytes.toNat →
                count < usizeModulus →
                  Reads sblock console state
                    (contents (state.view sblock)
                      (state.nodes address).inodeNo)
                    address offset count := by
  intro claimed
  rcases exists_oneFile with ⟨state, -, formed, ⟨head, type, size⟩, -⟩
  have reads :=
    claimed smallDisk silent state geometry_smallDisk formed 7
      (by rw [head]; decide) (by rw [type]; decide) 1 (usizeModulus - 1)
      (by rw [size]; decide) (by decide)
  have stops :
      (inodeRead smallDisk silent (state.nodes 7) 1
        (usizeModulus - 1)).run { state.store with held := [0] } =
          .error .assertion := by
    unfold inodeRead
    rw [if_neg (by rw [type]; decide), size]
    rfl
  unfold Reads Ensures at reads
  rw [stops] at reads
  exact reads

end FudanOS.Fs.ByteArrays
