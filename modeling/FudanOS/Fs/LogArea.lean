import FudanOS.Fs.LogReservation

/-!
# Where the copies of a commit are written

`cache_end_op` copies entry `i` of the header to block `log_start + 1 + i`.
`cache_begin_op` admits operations up to `LOG_MAX_SIZE` recorded blocks
whatever the size of the logging area, and `num_log_blocks` counts the header
block.  The copies therefore stay inside the area exactly on the layouts with
room for `LOG_MAX_SIZE` copies besides the header.  The layout written by
`mkfs` reserves one block less.
-/

namespace FudanOS.Fs.LogArea

open FudanOS.Library.Runs
open FudanOS.Fs.Defines
open FudanOS.Fs.LogSections
open FudanOS.Fs.LogReservation

/-! ## The layouts in use -/

/-- `BIT_PER_BLOCK` -/
abbrev bitPerBlock : Nat := blockSize * 8

/-- `INODE_PER_BLOCK`, with 64 bytes to an `InodeEntry`. -/
abbrev inodePerBlock : Nat := blockSize / 64

/-- The super block written by `mkfs`: `FSSIZE` blocks, `NINODES` inodes. -/
def mkfsSuperBlock : SuperBlock :=
  let fssize := 1000
  let ninodes := 200
  let nbitmap := fssize / (blockSize * 8) + 1
  let ninodeblocks := ninodes / inodePerBlock + 1
  let numLogBlocks := logMaxSize
  let nmeta := 2 + numLogBlocks + ninodeblocks + nbitmap
  { numBlocks := UInt32.ofNat fssize
    numDataBlocks := UInt32.ofNat (fssize - nmeta)
    numInodes := UInt32.ofNat ninodes
    numLogBlocks := UInt32.ofNat numLogBlocks
    logStart := 2
    inodeStart := UInt32.ofNat (2 + numLogBlocks)
    bitmapStart := UInt32.ofNat (2 + numLogBlocks + ninodeblocks) }

/-- The super block of `initialize_mock(log_size, num_data_blocks)`. -/
def mockSuperBlock (logSize numDataBlocks : Nat) : SuperBlock where
  logStart := 2
  inodeStart := UInt32.ofNat (2 + 1 + logSize)
  bitmapStart := UInt32.ofNat (2 + 1 + logSize) + 1
  numInodes := 1
  numLogBlocks := UInt32.ofNat (1 + logSize)
  numDataBlocks := UInt32.ofNat numDataBlocks
  numBlocks :=
    UInt32.ofNat
      (1 + 1 + 1 + logSize + 1 +
        (numDataBlocks + bitPerBlock - 1) / bitPerBlock + numDataBlocks)

/-- The two checks of `MockBlockDevice::initialize`. -/
def AcceptedByMock (sblock : SuperBlock) : Prop :=
  let numBitmapBlocks :=
    (sblock.numBlocks.toNat + bitPerBlock - 1) / bitPerBlock
  let numPreallocated :=
    1 + 1 + sblock.numLogBlocks.toNat +
      (sblock.numInodes.toNat + inodePerBlock - 1) / inodePerBlock +
      numBitmapBlocks
  2 ≤ sblock.numLogBlocks.toNat ∧
    numPreallocated + sblock.numDataBlocks.toNat ≤ sblock.numBlocks.toNat

/-- The layouts on which the block cache is started. -/
inductive Layout : SuperBlock → Prop where
  | mkfs : Layout mkfsSuperBlock
  | mock
      (logSize numDataBlocks : Nat)
      (accepted : AcceptedByMock (mockSuperBlock logSize numDataBlocks)) :
      Layout (mockSuperBlock logSize numDataBlocks)

theorem Layout.logStart_eq
    {sblock : SuperBlock}
    (layout : Layout sblock) :
    sblock.logStart = 2 := by
  cases layout <;> rfl

/-- A copy lies in the logging area, behind the header block. -/
def InArea (sblock : SuperBlock) (copy : BlockNo) : Prop :=
  sblock.logStart.toNat + 1 ≤ copy.toNat ∧
    copy.toNat < sblock.logStart.toNat + sblock.numLogBlocks.toNat

/-- Every execution on the layout keeps its log copies in the area. -/
def CopiesInArea (sblock : SuperBlock) : Prop :=
  ∀ (Ctx : Type) [Fintype Ctx] [DecidableEq Ctx]
    (blockNo : Nat → BlockNo)
    (labels : List (Label Ctx))
    (system : System Ctx),
      Executes sblock blockNo labels system →
        ∀ copy ∈ system.copies, InArea sblock copy

/-! ## Copies carry an index below the capacity of the header -/

section Bound

variable {Ctx : Type}

/-- A move writes only the copy on which its context stands. -/
theorem moves_copies_eq
    {sblock : SuperBlock}
    {system : System Ctx}
    {context : Ctx}
    {log : Log}
    {phase : Phase}
    {copies : List BlockNo}
    {copy : BlockNo}
    (moves : Moves sblock system context log phase copies)
    (member : copy ∈ copies) :
    ∃ index,
      system.phase context = .copying index ∧
        copy = sblock.logBlock index := by
  cases moves with
  | copy copying =>
      rw [List.mem_singleton] at member
      exact ⟨_, copying, member⟩
  | _ => simp at member

variable [Fintype Ctx]

structure CopiesBelow
    (sblock : SuperBlock)
    (system : System Ctx) : Prop where
  reservation : Reservation system
  next :
    ∀ context index,
      system.phase context = .copying index → index < logMaxSize
  written :
    ∀ copy ∈ system.copies,
      ∃ index < logMaxSize, copy = sblock.logBlock index

theorem copyFrom_copying
    {log : Log}
    {start index : Nat}
    (copying : copyFrom log start = .copying index) :
    index < log.header.numBlocks := by
  unfold copyFrom at copying
  split_ifs at copying with below
  cases copying
  exact below

/-- The head of the copying loop stays below the capacity. -/
theorem copyFrom_bounded
    {system : System Ctx}
    (reservation : Reservation system)
    {log : Log}
    {start index : Nat}
    (sameHeader : log.header = system.log.header)
    (copying : copyFrom log start = .copying index) :
    index < logMaxSize := by
  have recorded := copyFrom_copying copying
  have budget := reservation.budget
  rw [sameHeader] at recorded
  omega

/-- A move enters only copies below the capacity of the header. -/
theorem moves_copying_bounded
    {sblock : SuperBlock}
    {system : System Ctx}
    {context : Ctx}
    {log : Log}
    {phase : Phase}
    {copies : List BlockNo}
    {index : Nat}
    (reservation : Reservation system)
    (moves : Moves sblock system context log phase copies)
    (copying : phase = .copying index) :
    index < logMaxSize := by
  cases moves with
  | commit running ended =>
      have sameHeader : log.header = system.log.header := by
        simp only [cacheEndOpSection] at ended
        split_ifs at ended <;> simp at ended
        rw [← ended]
      exact copyFrom_bounded reservation sameHeader copying
  | copy => exact copyFrom_bounded reservation rfl copying
  | _ => simp at copying

variable [DecidableEq Ctx]

theorem copiesBelow_step
    {sblock : SuperBlock}
    {system target : System Ctx}
    {label : Label Ctx}
    (below : CopiesBelow sblock system)
    (taken : step sblock system label = .ok target) :
    CopiesBelow sblock target := by
  refine
    { reservation := reservation_step below.reservation taken
      next := ?_
      written := ?_ }
  · rcases step_moves taken with ⟨context, log, phase, copies, moves, rfl⟩
    intro other index copying
    by_cases same : other = context
    · subst other
      have entered : phase = .copying index := by
        simpa using copying
      exact moves_copying_bounded below.reservation moves entered
    · have before : system.phase other = .copying index := by
        simpa [Function.update_of_ne same] using copying
      exact below.next other index before
  · rcases step_moves taken with ⟨context, log, phase, copies, moves, rfl⟩
    intro copy member
    rcases List.mem_append.mp member with earlier | last
    · exact below.written copy earlier
    · rcases moves_copies_eq moves last with ⟨index, copying, rfl⟩
      exact ⟨index, below.next context index copying, rfl⟩

theorem copiesBelow_executes
    {sblock : SuperBlock}
    {blockNo : Nat → BlockNo}
    {labels : List (Label Ctx)}
    {system : System Ctx}
    (executes : Executes sblock blockNo labels system) :
    CopiesBelow sblock system :=
  executes.invariant
    { reservation := reservation_initial blockNo
      next := by simp [initial]
      written := by simp [initial] }
    fun _ _ _ below _ taken => copiesBelow_step below taken

end Bound

/-- With room for every recordable block, all copies stay in the area. -/
theorem copiesInArea_of_room
    {sblock : SuperBlock}
    (layout : Layout sblock)
    (room : logMaxSize + 1 ≤ sblock.numLogBlocks.toNat) :
    CopiesInArea sblock := by
  intro Ctx _ _ blockNo labels system executes copy member
  rcases (copiesBelow_executes executes).written copy member with
    ⟨index, below, rfl⟩
  have start : sblock.logStart.toNat = 2 := by
    rw [layout.logStart_eq]
    rfl
  simp only [logMaxSize, blockSize] at below room
  rw [InArea, sblock.toNat_logBlock index (by omega) (by omega)]
  omega

/-! ## An execution which fills the header -/

/-- `count` blocks from `first` on, synced by one context. -/
def syncs (context : Fin 2) (first count : Nat) : List (Label (Fin 2)) :=
  (List.range count).map fun offset =>
    .sync context (UInt64.ofNat (first + offset))

/-- A whole operation of context 1 on `count` new blocks. -/
def shortOperation (first count : Nat) : List (Label (Fin 2)) :=
  .beginOp 1 :: syncs 1 first count ++ [.endOp 1]

/--
One long-lived operation keeps the group open while short ones record 53
blocks, and then records its own ten.
-/
def fillingLabels : List (Label (Fin 2)) :=
  .beginOp 0 ::
    (shortOperation 100 10 ++ shortOperation 110 10 ++
      shortOperation 120 10 ++ shortOperation 130 10 ++
      shortOperation 140 3 ++ shortOperation 143 10 ++
      syncs 0 153 10 ++ [.endOp 0])

/-- The labels whose effect depends on the layout. -/
def isCommit {Ctx : Type} : Label Ctx → Bool
  | .commit _ => true
  | .beginOp _ | .sync _ _ | .endOp _ => false

/-- Only the writes of a commit depend on the layout. -/
theorem execute_step_layout
    {Ctx : Type}
    [DecidableEq Ctx]
    (left right : SuperBlock)
    (labels : List (Label Ctx))
    (noCommit : ∀ label ∈ labels, isCommit label = false)
    (system : System Ctx) :
    execute (step left) system labels =
      execute (step right) system labels := by
  induction labels generalizing system with
  | nil => rfl
  | cons label rest ih =>
      have same : step left system label = step right system label := by
        cases label with
        | commit context =>
            simpa [isCommit] using noCommit _ List.mem_cons_self
        | _ => rfl
      simp only [execute, same]
      split
      · exact ih (fun later member => noCommit later (by simp [member])) _
      · rfl

/-- The header is full when the long-lived operation starts its commit. -/
theorem filling_reaches_full (sblock : SuperBlock) :
    ∃ system : System (Fin 2),
      Executes sblock (fun _ => 0) fillingLabels system ∧
        system.phase 0 = .copying 0 ∧
        system.log.header.numBlocks = logMaxSize := by
  rcases
      exists_of_reaches
        (show
          reaches (step mkfsSuperBlock)
              (initial fun _ => 0 : System (Fin 2)) fillingLabels
              (fun system =>
                decide
                  (system.phase 0 = .copying 0 ∧
                    system.log.header.numBlocks = logMaxSize)) = true by
          decide +kernel) with
    ⟨system, executed, reached⟩
  have executedHere :
      execute (step sblock) (initial fun _ => 0) fillingLabels =
        .ok system := by
    rw [execute_step_layout sblock mkfsSuperBlock fillingLabels
      (by decide)]
    exact executed
  exact ⟨system, Run.of_execute executedHere fun _ _ _ => trivial,
    of_decide_eq_true reached⟩

/-- A commit goes on to write copy `index` for every recorded block. -/
theorem copying_reaches
    {Ctx : Type}
    [DecidableEq Ctx]
    {sblock : SuperBlock}
    {blockNo : Nat → BlockNo}
    {labels : List (Label Ctx)}
    {system : System Ctx}
    {context : Ctx}
    (executes : Executes sblock blockNo labels system)
    (starts : system.phase context = .copying 0)
    (index : Nat)
    (recorded : index < system.log.header.numBlocks) :
    ∃ later target,
      Executes sblock blockNo later target ∧
        target.log = system.log ∧
        target.phase context = .copying index := by
  induction index with
  | zero => exact ⟨labels, system, executes, rfl, starts⟩
  | succ index ih =>
      rcases ih (Nat.lt_of_succ_lt recorded) with
        ⟨later, target, run, sameLog, copying⟩
      have taken :
          step sblock target (.commit context) =
            .ok
              { target.move context target.log
                  (copyFrom target.log (index + 1)) with
                copies := target.copies ++ [sblock.logBlock index] } := by
        simp [step, commitStep, copying]
      refine ⟨_, _, Run.snoc run trivial taken, sameLog, ?_⟩
      simp [copyFrom, sameLog, recorded]

/-- Every recordable index is the index of some written copy. -/
theorem copy_written
    (sblock : SuperBlock)
    (index : Nat)
    (below : index < logMaxSize) :
    ∃ (labels : List (Label (Fin 2))) (system : System (Fin 2)),
      Executes sblock (fun _ => 0) labels system ∧
        sblock.logBlock index ∈ system.copies := by
  rcases filling_reaches_full sblock with
    ⟨full, executes, starts, count⟩
  rcases copying_reaches executes starts index (by omega) with
    ⟨later, target, run, _, copying⟩
  have taken :
      step sblock target (.commit 0) =
        .ok
          { target.move 0 target.log
              (copyFrom target.log (index + 1)) with
            copies := target.copies ++ [sblock.logBlock index] } := by
    simp [step, commitStep, copying]
  exact ⟨_, _, Run.snoc run trivial taken, by simp⟩

/-! ## Exactly the layouts with room for a full header -/

/--
On the layouts of `mkfs` and of the mock device, the copies of every
execution stay in the logging area if and only if the area has
`LOG_MAX_SIZE` blocks besides its header.
-/
theorem copies_in_area_iff_room :
    ∀ sblock, Layout sblock →
      (CopiesInArea sblock ↔
        logMaxSize + 1 ≤ sblock.numLogBlocks.toNat) := by
  intro sblock layout
  constructor
  · intro inArea
    by_contra small
    have start : sblock.logStart.toNat = 2 := by
      rw [layout.logStart_eq]
      rfl
    have below : sblock.numLogBlocks.toNat - 1 < logMaxSize := by
      simp only [logMaxSize, blockSize] at small ⊢
      omega
    rcases copy_written sblock (sblock.numLogBlocks.toNat - 1) below with
      ⟨labels, system, executes, written⟩
    have area := (inArea _ _ _ _ executes _ written).2
    simp only [logMaxSize, blockSize] at below
    rw [sblock.toNat_logBlock _ (by omega) (by omega)] at area
    omega
  · exact copiesInArea_of_room layout

/-- The mock layout of the tests with one log block beside the header. -/
theorem copies_in_area_iff_room_single :
    Layout (mockSuperBlock 1 1) ∧
      (CopiesInArea (mockSuperBlock 1 1) ↔
        logMaxSize + 1 ≤ (mockSuperBlock 1 1).numLogBlocks.toNat) := by
  have layout : Layout (mockSuperBlock 1 1) :=
    Layout.mock 1 1 (by simp only [AcceptedByMock]; decide)
  exact ⟨layout, copies_in_area_iff_room _ layout⟩

/--
On the layout of `mkfs` the last copy of a full header is written to the
first inode block.
-/
theorem mkfs_copy_overwrites_inodes :
    ∃ (labels : List (Label (Fin 2))) (system : System (Fin 2)),
      Executes mkfsSuperBlock (fun _ => 0) labels system ∧
        ∃ copy ∈ system.copies,
          copy.toNat = mkfsSuperBlock.inodeStart.toNat ∧
            ¬ InArea mkfsSuperBlock copy := by
  rcases copy_written mkfsSuperBlock 62 (by decide) with
    ⟨labels, system, executes, written⟩
  refine ⟨labels, system, executes, _, written, by decide, ?_⟩
  simp only [InArea]
  decide

end FudanOS.Fs.LogArea
