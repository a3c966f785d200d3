import FudanOS.Fs.CrashAtomicity

/-!
# What is durable when `cache_end_op` returns

`cache.h` promises that `end_op` sleeps until all blocks of the operation are
written to disk.  The code returns at once when another operation is still
running.  This module states exactly when the promise is kept.
-/

namespace FudanOS.Fs.EndOpDurability

open FudanOS.Fs.Defines
open FudanOS.Fs.LogSections
open FudanOS.Fs.BlockCache
open FudanOS.Fs.CacheRefinement
open FudanOS.Fs.LogCommit
open FudanOS.Fs.CacheClient
open FudanOS.Fs.CrashAtomicity
open FudanOS.Library.RedoLog
open FudanOS.Library.Runs

variable
    {Op : Type}
    {sblock : SuperBlock}

/-- An operation has synced a block. -/
def SyncedBy (history : History Op) (op : Op) (blockNo : BlockNo) : Prop :=
  ∃ record ∈ recordsOf history.groups ++ history.pending,
    record.op = op ∧ record.blockNo = blockNo

/--
After a crash on the given disk, and after any number of recoveries which are
cut short, `init_bcache` restores for every block which the operation synced
the contents which the block has in memory.
-/
def Durable
    (sblock : SuperBlock)
    (journal : Journal Op)
    (op : Op)
    (disk : Disk) : Prop :=
  ∀ crashed, CutRecoveries sblock disk crashed →
    ∃ cache,
      initBcache sblock crashed = .ok cache ∧
        ∀ blockNo, SyncedBy journal.history op blockNo →
          cache.device.contents blockNo =
            (status journal.system.cache blockNo).data

/-- Every block which the operation synced is already on disk. -/
def OnDiskAlready (journal : Journal Op) (op : Op) : Prop :=
  ∀ blockNo, SyncedBy journal.history op blockNo →
    journal.system.cache.device.contents blockNo =
      (status journal.system.cache blockNo).data

section Durability

variable
    {roomy : Roomy sblock}
    {base : Disk}
    {journal : Journal Op}
    {abstract : Abstract}
    {op : Op}

/-- What a running operation synced is pending and listed in the header. -/
theorem Logged.listed_of_syncedBy
    (logged : Logged roomy base journal abstract)
    (runs : op ∈ journal.history.running)
    {blockNo : BlockNo}
    (synced : SyncedBy journal.history op blockNo) :
    blockNo ∈ abstract.log.header.entries := by
  rcases synced with ⟨record, member, rfl, rfl⟩
  rcases List.mem_append.mp member with grouped | pending
  · have ended := logged.accounted.grouped record grouped
    exact absurd ended (logged.accounted.apart record.op runs)
  · exact logged.listed record pending

/-- On a disk which holds some contents, durability compares these. -/
theorem durable_iff_of_installed
    {contents disk : Disk}
    (logged : Logged roomy base journal abstract)
    (runs : op ∈ journal.history.running)
    (installed : roomy.layout.Installed contents disk) :
    Durable sblock journal op disk ↔
      ∀ blockNo, SyncedBy journal.history op blockNo →
        contents blockNo = (status journal.system.cache blockNo).data := by
  have home :
      ∀ blockNo, SyncedBy journal.history op blockNo →
        roomy.layout.Home blockNo := by
    intro blockNo synced
    have listed := Logged.listed_of_syncedBy logged runs synced
    exact roomy.home_of_not_inLog
      (logged.coherent.agrees.entries blockNo listed)
  constructor
  · intro durable blockNo synced
    rcases durable disk .none with ⟨cache, booted, restored⟩
    have again := (recovery_through installed.represents booted).2
    rw [← restored blockNo synced]
    exact (again.home blockNo (home blockNo synced)).symm
  · intro agree crashed recovering
    rcases recovery_restores installed.represents recovering with
      ⟨cache, booted, restored⟩
    refine ⟨cache, booted, ?_⟩
    intro blockNo synced
    rw [restored.home blockNo (home blockNo synced)]
    exact agree blockNo synced

/-- The two ways in which an operation ends. -/
theorem Logged.endOp_cases
    [DecidableEq Op]
    (logged : Logged roomy base journal abstract)
    (runs : op ∈ journal.history.running)
    {after : Journal Op}
    (ended : stepJournal sblock journal (.endOp op) = .ok after) :
    (journal.system.cache.log.outstanding ≠ 1 ∧
        after.system.cache.device = journal.system.cache.device) ∨
      (journal.system.cache.log.outstanding = 1 ∧
        Unheld abstract ∧
        roomy.layout.Installed
          (applyWrites (version base journal.history.groups)
            (writesOf journal.history.pending))
          after.system.cache.device.contents) := by
  have log : journal.system.cache.log = abstract.log :=
    congrArg Abstract.log logged.coherent.refines.seen
  have device : journal.system.cache.device = abstract.device :=
    congrArg Abstract.device logged.coherent.refines.seen
  cases called : step sblock journal.system (.endOp op) with
  | error stop => simp [stepJournal, called, bind, Except.bind] at ended
  | ok system =>
      simp only [stepJournal, called, bind, Except.bind,
        Except.ok.injEq] at ended
      subst ended
      have usage : Usage sblock journal.system (.endOp op) := trivial
      rcases coherent_step logged.coherent usage called with
        ⟨after, coherent, moves⟩
      have afterDevice : system.cache.device = after.device :=
        congrArg Abstract.device coherent.refines.seen
      rw [log, afterDevice, device]
      cases moves with
      | leave section_ =>
          rcases logged.section_cases runs section_ with
            ⟨_, others, _⟩ | ⟨impossible, _⟩
          · exact Or.inl ⟨others, rfl⟩
          · simp at impossible
      | commit section_ unheld committed =>
          rcases logged.section_cases runs section_ with
            ⟨impossible, _⟩ | ⟨_, last, _⟩
          · simp at impossible
          · have header := (cacheEndOpSection_header section_).1
            have onDisk := logged.onDisk_commit header unheld committed
            have installed := onDisk.installed
            rw [version_snoc] at installed
            exact Or.inr ⟨last, unheld, installed⟩

/-- When other operations run, nothing new reaches the disk. -/
theorem durable_iff_of_others
    [DecidableEq Op]
    (logged : Logged roomy base journal abstract)
    (runs : op ∈ journal.history.running)
    (others : journal.system.cache.log.outstanding ≠ 1)
    {after : Journal Op}
    (ended : stepJournal sblock journal (.endOp op) = .ok after) :
    Durable sblock journal op after.system.cache.device.contents ↔
      OnDiskAlready journal op := by
  rcases Logged.endOp_cases logged runs ended with
    ⟨_, unchanged⟩ | ⟨alone, _⟩
  · have device : journal.system.cache.device = abstract.device :=
      congrArg Abstract.device logged.coherent.refines.seen
    have installed :
        roomy.layout.Installed journal.system.cache.device.contents
          journal.system.cache.device.contents := by
      refine ⟨?_, fun _ _ => rfl⟩
      rw [device]
      exact logged.onDisk.installed.idle
    rw [unchanged]
    exact durable_iff_of_installed logged runs installed
  · exact absurd alone others

/-- The last operation commits everything before it returns. -/
theorem durable_of_alone
    [DecidableEq Op]
    (logged : Logged roomy base journal abstract)
    (runs : op ∈ journal.history.running)
    (alone : journal.system.cache.log.outstanding = 1)
    {after : Journal Op}
    (ended : stepJournal sblock journal (.endOp op) = .ok after) :
    Durable sblock journal op after.system.cache.device.contents := by
  rcases Logged.endOp_cases logged runs ended with
    ⟨others, _⟩ | ⟨_, unheld, installed⟩
  · exact absurd alone others
  · refine (durable_iff_of_installed logged runs installed).mpr ?_
    intro blockNo synced
    have listed := Logged.listed_of_syncedBy logged runs synced
    rw [← logged.current_entry unheld listed]
    exact (congrArg Status.data
      (logged.coherent.refines.status blockNo)).symm

end Durability

/-- Operation 0 writes block 300 while the given operations run. -/
def writing (others : List Nat) : List (Call Nat) :=
  others.map .beginOp ++
    [.beginOp 0, .acquire 300, .modify 300 fun _ => 1, .sync 0 300,
      .release 300]

/-- The run of `writing`, and what it leaves behind. -/
def writes (others : List Nat) (check : Journal Nat → Bool) : Bool :=
  match initBcache roomySuperBlock zeroDisk with
  | .ok start =>
      match
        executeChecked (stepJournal roomySuperBlock)
          (inOperations roomySuperBlock)
          (Journal.init start fun _ => { rm := 0 }) (writing others) with
      | some journal =>
          check journal && (stepJournal roomySuperBlock journal
            (.endOp 0)).isOk
      | none => false
  | .error _ => false

theorem exists_of_writes
    {others : List Nat}
    {check : Journal Nat → Bool}
    (computed : writes others check = true) :
    ∃ start journal after,
      initBcache roomySuperBlock zeroDisk = .ok start ∧
        Run (Takes (stepJournal roomySuperBlock))
          (InOperations roomySuperBlock)
          (Journal.init start fun _ => { rm := 0 }) (writing others)
          journal ∧
        check journal = true ∧
        stepJournal roomySuperBlock journal (.endOp 0) = .ok after := by
  unfold writes at computed
  split at computed
  · rename_i start booted
    split at computed
    · rename_i journal executed
      rw [Bool.and_eq_true] at computed
      have run := Run.of_executeChecked inOperations_sound executed
      cases ended : stepJournal roomySuperBlock journal (.endOp 0) with
      | error stop =>
          rw [ended] at computed
          exact absurd computed.2 (by simp [Except.isOk, Except.toBool])
      | ok after =>
          exact ⟨start, journal, after, booted, run, computed.1, ended⟩
    · simp at computed
  · simp at computed

end FudanOS.Fs.EndOpDurability
