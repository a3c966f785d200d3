import FudanOS.Fs.BlockStore

/-!
# Crash atomicity of the write-ahead log

Any number of operations run over the block cache, one call at a time.  The
history of a run collects what each operation synced and groups it into
commits: a group is closed by the `cache_end_op` which leaves no operation
running.  Whatever prefix of the device writes a crash lets through, and
however often recovery is itself cut short, `init_bcache` restores the
contents after a whole number of groups.
-/

namespace FudanOS.Fs.CrashAtomicity

open FudanOS.Fs.Defines
open FudanOS.Fs.LogSections
open FudanOS.Fs.BlockCache
open FudanOS.Fs.CacheRefinement
open FudanOS.Fs.LogCommit
open FudanOS.Fs.CacheClient
open FudanOS.Fs.BlockStore
open FudanOS.Library.RedoLog
open FudanOS.Library.Runs

/-- What an operation synced for a block. -/
structure Record (Op : Type) where
  op : Op
  blockNo : BlockNo
  data : BlockData

/-- The writes which records stand for. -/
def writesOf {Op : Type} (records : List (Record Op)) :
    List (BlockNo × BlockData) :=
  records.map fun record => (record.blockNo, record.data)

/-- A group commit and the device writes made when its `end_op` returned. -/
structure Group (Op : Type) where
  records : List (Record Op)
  writes : Nat

/-- What the operations did so far. -/
structure History (Op : Type) where
  running : List Op
  ended : List Op
  pending : List (Record Op)
  groups : List (Group Op)

/-- A run of operations over the cache. -/
structure Journal (Op : Type) where
  system : System Op
  history : History Op

def Journal.init
    {Op : Type}
    (cache : Cache)
    (contexts : Op → OpContext) : Journal Op where
  system := System.init cache contexts
  history := { running := [], ended := [], pending := [], groups := [] }

/-- The records of the first groups. -/
def recordsOf {Op : Type} (groups : List (Group Op)) : List (Record Op) :=
  groups.flatMap Group.records

/-- The contents of the disk after some groups. -/
def version {Op : Type} (base : Disk) (groups : List (Group Op)) : Disk :=
  applyWrites base (writesOf (recordsOf groups))

variable
    {Op : Type}
    {sblock : SuperBlock}

/-- The history after a call. -/
def History.next
    [DecidableEq Op]
    (history : History Op)
    (before after : System Op) : Call Op → History Op
  | .sync op blockNo =>
      { history with
        pending :=
          history.pending ++ [⟨op, blockNo, after.synced blockNo⟩] }
  | .beginOp op => { history with running := op :: history.running }
  | .endOp op =>
      let left : History Op :=
        { history with
          running := history.running.erase op
          ended := op :: history.ended }
      if before.cache.log.outstanding = 1 then
        { left with
          pending := []
          groups :=
            left.groups ++
              [⟨left.pending, after.cache.device.writes.length⟩] }
      else
        left
  | _ => history

/-- One call of an operation. -/
def stepJournal
    [DecidableEq Op]
    (sblock : SuperBlock)
    (journal : Journal Op)
    (call : Call Op) : Except Stop (Journal Op) := do
  let system ← step sblock journal.system call
  .ok ⟨system, journal.history.next journal.system system call⟩

/--
An operation is one use of a context between its `begin_op` and its `end_op`.
Blocks are modified and synced inside running operations, and never written
past the log.
-/
def InOperations
    (sblock : SuperBlock)
    (journal : Journal Op)
    (call : Call Op) : Prop :=
  Usage sblock journal.system call ∧
    match call with
    | .beginOp op =>
        op ∉ journal.history.running ∧ op ∉ journal.history.ended
    | .sync op _ => op ∈ journal.history.running
    | .endOp op => op ∈ journal.history.running
    | .modify _ _ => journal.history.running ≠ []
    | .syncNull _ => False
    | _ => True

/-- Recoveries which are cut short, one after the other. -/
inductive CutRecoveries (sblock : SuperBlock) (disk : Disk) : Disk → Prop where
  | none : CutRecoveries sblock disk disk
  | again
      (earlier : CutRecoveries sblock disk middle)
      (booted : initBcache sblock middle = .ok cache)
      (count : Nat) :
      CutRecoveries sblock disk (cache.device.cut count)

/-! ## What recovery restores -/

section Recovery

variable
    {roomy : Roomy sblock}
    {contents disk : Disk}

/-- Contents matter at the home blocks only. -/
theorem Represents.congr
    {layout : Layout BlockNo BlockData}
    {other : Disk}
    (represents : layout.Represents contents disk)
    (same : ∀ blockNo, layout.Home blockNo →
      contents blockNo = other blockNo) :
    layout.Represents other disk where
  listable := represents.listable
  view := fun blockNo home =>
    (represents.view blockNo home).trans (same blockNo home)

theorem clearedHeader
    (roomy : Roomy sblock)
    (header : LogHeader)
    (cleared : header.numBlocks = 0) :
    roomy.layout.entries header.encode = [] := by
  rw [roomy.entries_encode (by rw [cleared]; exact Nat.zero_le _),
    ← List.length_eq_zero_iff, LogHeader.length_entries, cleared]

/-- A recovery represents the same contents at each of its writes. -/
theorem recovery_through
    (represents : roomy.layout.Represents contents disk)
    {cache : Cache}
    (booted : initBcache sblock disk = .ok cache) :
    (∀ count,
        roomy.layout.Represents contents (cache.device.cut count)) ∧
      roomy.layout.Installed contents cache.device.contents := by
  rcases initBcache_spec represents with
    ⟨result, after, initialized, refines, recovered⟩
  rw [booted] at initialized
  cases initialized
  have device :
      cache.device =
        recoveredDevice roomy contents disk after.log.header :=
    (congrArg Abstract.device refines.seen).trans recovered.device
  have through :=
    represents.through_recovery
      (clearedHeader roomy _ recovered.log.1)
  rw [device]
  exact ⟨through.1, through.2⟩

theorem cutRecoveries_represents
    (represents : roomy.layout.Represents contents disk)
    {crashed : Disk}
    (recovering : CutRecoveries sblock disk crashed) :
    roomy.layout.Represents contents crashed := by
  induction recovering with
  | none => exact represents
  | again earlier booted count ih =>
      exact (recovery_through ih booted).1 count

/-- The last recovery completes and restores the represented contents. -/
theorem recovery_restores
    (represents : roomy.layout.Represents contents disk)
    {crashed : Disk}
    (recovering : CutRecoveries sblock disk crashed) :
    ∃ cache,
      initBcache sblock crashed = .ok cache ∧
        roomy.layout.Installed contents cache.device.contents := by
  have there := cutRecoveries_represents represents recovering
  rcases initBcache_spec there with ⟨cache, _, booted, _⟩
  exact ⟨cache, booted, (recovery_through there booted).2⟩

/-- An idle log has an empty header on disk. -/
theorem numBlocks_of_installed
    (installed : roomy.layout.Installed contents disk) :
    (LogHeader.decode (disk sblock.headerBlock)).numBlocks = 0 := by
  have idle := installed.idle
  rw [Roomy.logged_eq] at idle
  rw [← LogHeader.length_entries, idle]
  rfl

end Recovery

/-! ## The disk along a run -/

section OnDisk

variable
    {layout : Layout BlockNo BlockData}
    {base : Disk}
    {groups : List (Group Op)}
    {device : Device}

/-- The device holds the last version, and every cut of it some version. -/
structure OnDisk
    (layout : Layout BlockNo BlockData)
    (base : Disk)
    (groups : List (Group Op))
    (device : Device) : Prop where
  installed : layout.Installed (version base groups) device.contents
  returned : ∀ group ∈ groups, group.writes ≤ device.writes.length
  cuts :
    ∀ count, ∃ included ≤ groups.length,
      (∀ index group, groups[index]? = some group →
          group.writes ≤ count → index < included) ∧
        layout.Represents (version base (groups.take included))
          (device.cut count)

theorem version_snoc (base : Disk) (groups : List (Group Op))
    (group : Group Op) :
    version base (groups ++ [group]) =
      applyWrites (version base groups) (writesOf group.records) := by
  simp [version, recordsOf, writesOf, applyWrites_append]

theorem cut_append
    (device : Device)
    (writes : List (BlockNo × BlockData))
    (count : Nat) :
    Device.cut { device with writes := device.writes ++ writes } count =
      if count ≤ device.writes.length then device.cut count
      else
        applyWrites device.contents
          (writes.take (count - device.writes.length)) := by
  simp only [Device.cut, Device.contents, List.take_append]
  split_ifs with inside
  · rw [Nat.sub_eq_zero_of_le inside, List.take_zero, List.append_nil]
  · rw [List.take_of_length_le (Nat.le_of_not_le inside),
      applyWrites_append]

/-- A group of a longer history is an earlier one or the last. -/
theorem group_cases
    {last group : Group Op}
    {index : Nat}
    (present : (groups ++ [last])[index]? = some group) :
    groups[index]? = some group ∨ (index = groups.length ∧ group = last) := by
  rw [List.getElem?_append] at present
  split_ifs at present with below
  · exact Or.inl present
  · rcases Nat.eq_or_lt_of_le (Nat.le_of_not_lt below) with same | beyond
    · subst same
      simp only [Nat.sub_self, List.getElem?_cons_zero,
        Option.some.injEq] at present
      exact Or.inr ⟨rfl, present.symm⟩
    · have past : index - groups.length ≠ 0 := by omega
      simp [past] at present

/-- A group commit appends its version. -/
theorem OnDisk.commit
    (onDisk : OnDisk layout base groups device)
    {records : List (Record Op)}
    (data : Nat → BlockData)
    {header cleared : BlockData}
    {next : Disk}
    (version_next :
      next = applyWrites (version base groups) (writesOf records))
    (listable : layout.Listable (layout.entries header))
    (copied :
      ∀ blockNo ∈ layout.entries header,
        data ((layout.entries header).idxOf blockNo) = next blockNo)
    (listed :
      ∀ record ∈ records, record.blockNo ∈ layout.entries header)
    (empty : layout.entries cleared = [])
    {writes : List (BlockNo × BlockData)}
    (appended : writes = commitWrites layout next data header cleared) :
    OnDisk layout base
      (groups ++ [⟨records, device.writes.length + writes.length⟩])
      { device with writes := device.writes ++ writes } := by
  have unchanged :
      ∀ blockNo ∉ layout.entries header,
        next blockNo = version base groups blockNo := by
    intro blockNo unlisted
    rw [version_next]
    apply applyWrites_of_ne
    intro write written same
    rcases List.mem_map.mp written with ⟨record, member, rfl⟩
    exact unlisted (same ▸ listed record member)
  rcases onDisk.installed.through_commit listable copied unchanged empty with
    ⟨old, new, installed⟩
  rw [← appended] at old new installed
  have longer : (layout.entries header).length < writes.length := by
    rw [appended]
    simp only [commitWrites, copies, List.length_append, List.length_map,
      List.length_range, List.length_cons]
    omega
  refine ⟨?_, ?_, ?_⟩
  · rw [version_snoc, ← version_next, Device.contents, applyWrites_append]
    exact installed
  · intro group member
    simp only [List.length_append]
    rcases List.mem_append.mp member with earlier | last
    · exact Nat.le_trans (onDisk.returned group earlier)
        (Nat.le_add_right _ _)
    · rw [List.mem_singleton.mp last]
  · intro count
    rw [cut_append]
    split_ifs with inside
    · rcases onDisk.cuts count with ⟨included, within, returned, represents⟩
      refine ⟨included, ?_, ?_, ?_⟩
      · rw [List.length_append]
        exact Nat.le_trans within (Nat.le_add_right _ _)
      · intro index group present reached
        rcases group_cases present with earlier | ⟨_, rfl⟩
        · exact returned index group earlier reached
        · simp only at reached
          omega
      · rw [List.take_append_of_le_length within]
        exact represents
    · have old' := old (count - device.writes.length)
      have new' := new (count - device.writes.length)
      by_cases copying :
          count - device.writes.length ≤ (layout.entries header).length
      · refine ⟨groups.length, ?_, ?_, ?_⟩
        · rw [List.length_append]
          exact Nat.le_add_right _ _
        · intro index group present reached
          rcases group_cases present with earlier | ⟨_, rfl⟩
          · exact (List.getElem?_eq_some_iff.mp earlier).1
          · simp only at reached
            omega
        · rw [List.take_append_of_le_length (Nat.le_refl _),
            List.take_length]
          exact old' copying
      · refine ⟨groups.length + 1, ?_, ?_, ?_⟩
        · rw [List.length_append, List.length_singleton]
        · intro index group present reached
          rcases group_cases present with earlier | ⟨rfl, _⟩
          · have below := (List.getElem?_eq_some_iff.mp earlier).1
            omega
          · exact Nat.lt_succ_self _
        · rw [List.take_of_length_le (by simp), version_snoc,
            ← version_next]
          exact new' (Nat.lt_of_not_le copying)

end OnDisk

/-! ## The operations along a run -/

/-- The running operations are the outstanding ones, and none of them is
split over two groups. -/
structure Accounted (history : History Op) (log : Log) : Prop where
  outstanding : log.outstanding = history.running.length
  few : history.running.length * opMaxNumBlocks ≤ logMaxSize
  nodup : history.running.Nodup
  apart : ∀ op ∈ history.running, op ∉ history.ended
  pending :
    ∀ record ∈ history.pending,
      record.op ∈ history.running ∨ record.op ∈ history.ended
  grouped :
    ∀ record ∈ recordsOf history.groups, record.op ∈ history.ended
  separate :
    ∀ included,
      ∀ record ∈ recordsOf (history.groups.take included),
        ∀ later ∈
            recordsOf (history.groups.drop included) ++ history.pending,
          record.op ≠ later.op

section Accounting

variable
    {history : History Op}
    {log : Log}
    {op : Op}

theorem mem_recordsOf_take
    {groups : List (Group Op)}
    {included : Nat}
    {record : Record Op}
    (member : record ∈ recordsOf (groups.take included)) :
    record ∈ recordsOf groups := by
  rcases List.mem_flatMap.mp member with ⟨group, taken, inside⟩
  exact List.mem_flatMap.mpr ⟨group, List.mem_of_mem_take taken, inside⟩

theorem Accounted.begin
    (accounted : Accounted history log)
    (headerFits : log.header.numBlocks ≤ logMaxSize)
    (admitted : mustWait log = false)
    (unused : op ∉ history.running ∧ op ∉ history.ended) :
    Accounted { history with running := op :: history.running }
      (admitOp log) := by
  have few := accounted.few
  have outstanding := accounted.outstanding
  have bound :=
    (admission_bound admitted headerFits (by
      simp only [opMaxNumBlocks, logMaxSize, blockSize] at few
      omega)).2
  refine ⟨?_, ?_, ?_, ?_, ?_, accounted.grouped, accounted.separate⟩
  · simp only [admitOp, usizeModulus, List.length_cons, outstanding]
    simp only [opMaxNumBlocks, logMaxSize, blockSize] at few
    omega
  · rw [outstanding] at bound
    simp only [List.length_cons]
    omega
  · exact List.nodup_cons.mpr ⟨unused.1, accounted.nodup⟩
  · intro other member
    rcases List.mem_cons.mp member with rfl | old
    · exact unused.2
    · exact accounted.apart other old
  · intro record member
    rcases accounted.pending record member with runs | ended
    · exact Or.inl (List.mem_cons_of_mem _ runs)
    · exact Or.inr ended

theorem Accounted.sync
    (accounted : Accounted history log)
    {target : Log}
    (same : target.outstanding = log.outstanding)
    {record : Record Op}
    (runs : record.op ∈ history.running) :
    Accounted { history with pending := history.pending ++ [record] }
      target := by
  refine ⟨same.trans accounted.outstanding, accounted.few, accounted.nodup,
    accounted.apart, ?_, accounted.grouped, ?_⟩
  · intro other member
    rcases List.mem_append.mp member with old | new
    · exact accounted.pending other old
    · rw [List.mem_singleton.mp new]
      exact Or.inl runs
  · intro included earlier taken later member
    rw [← List.append_assoc] at member
    rcases List.mem_append.mp member with old | new
    · exact accounted.separate included earlier taken later old
    · rw [List.mem_singleton.mp new]
      intro equal
      have ended :=
        accounted.grouped earlier (mem_recordsOf_take taken)
      rw [equal] at ended
      exact accounted.apart record.op runs ended

theorem Accounted.end
    [DecidableEq Op]
    (accounted : Accounted history log)
    {target : Log}
    (runs : op ∈ history.running)
    (decremented : target.outstanding = log.outstanding - 1) :
    Accounted
      { history with
        running := history.running.erase op
        ended := op :: history.ended }
      target := by
  have length := List.length_erase_of_mem runs
  refine ⟨?_, ?_, accounted.nodup.erase op, ?_, ?_, ?_, accounted.separate⟩
  · rw [decremented, accounted.outstanding]
    exact length.symm
  · have few := accounted.few
    simp only [length, opMaxNumBlocks] at few ⊢
    omega
  · intro other member
    have here := (accounted.nodup.mem_erase_iff.mp member)
    simp only [List.mem_cons, not_or]
    exact ⟨here.1, accounted.apart other here.2⟩
  · intro record member
    rcases accounted.pending record member with running | ended
    · by_cases same : record.op = op
      · exact Or.inr (by simp [same])
      · exact Or.inl (accounted.nodup.mem_erase_iff.mpr ⟨same, running⟩)
    · exact Or.inr (List.mem_cons_of_mem _ ended)
  · exact fun record member =>
      List.mem_cons_of_mem _ (accounted.grouped record member)

/-- Closing a group when no operation is left. -/
theorem Accounted.close
    (accounted : Accounted history log)
    (alone : history.running = [])
    {target : Log}
    (same : target.outstanding = log.outstanding)
    (writes : Nat) :
    Accounted
      { history with
        pending := []
        groups := history.groups ++ [⟨history.pending, writes⟩] }
      target := by
  refine ⟨same.trans accounted.outstanding, accounted.few, accounted.nodup,
    accounted.apart, by simp, ?_, ?_⟩
  · intro record member
    simp only [recordsOf, List.flatMap_append, List.flatMap_singleton]
      at member
    rcases List.mem_append.mp member with old | new
    · exact accounted.grouped record old
    · rcases accounted.pending record new with running | ended
      · rw [alone] at running
        simp at running
      · exact ended
  · intro included record taken later member
    by_cases within : included ≤ history.groups.length
    · rw [List.take_append_of_le_length within] at taken
      rw [List.drop_append_of_le_length within] at member
      simp only [recordsOf, List.flatMap_append, List.flatMap_singleton,
        List.append_nil] at member
      exact accounted.separate included record taken later member
    · rw [List.drop_of_length_le (by simp; omega)] at member
      simp [recordsOf] at member

end Accounting

/-! ## The invariant of a run -/

/-- Everything a run of operations keeps. -/
structure Logged
    (roomy : Roomy sblock)
    (base : Disk)
    (journal : Journal Op)
    (abstract : Abstract) : Prop where
  coherent : Coherent roomy journal.system abstract
  onDisk :
    OnDisk roomy.layout base journal.history.groups abstract.device
  accounted : Accounted journal.history abstract.log
  synced :
    ∀ blockNo, ¬ sblock.InLog blockNo →
      journal.system.synced blockNo =
        applyWrites (version base journal.history.groups)
          (writesOf journal.history.pending) blockNo
  listed :
    ∀ record ∈ journal.history.pending,
      record.blockNo ∈ abstract.log.header.entries

section Invariant

variable
    {roomy : Roomy sblock}
    {base : Disk}
    {journal : Journal Op}
    {abstract after : Abstract}
    {system : System Op}
    {op : Op}
    {blockNo : BlockNo}

/-- The section of `cache_sync` leaves its block in the header. -/
theorem cacheSyncSection_mem
    {log target : Log}
    {ctx charged : OpContext}
    (section_ : cacheSyncSection log ctx blockNo = .ok (target, charged)) :
    target.outstanding = log.outstanding ∧
      blockNo ∈ target.header.entries ∧
      ∀ other ∈ log.header.entries, other ∈ target.header.entries := by
  rcases cacheSyncSection_cases section_ with
    ⟨member, rfl, _⟩ | ⟨_, _, _, rfl, _⟩
  · exact ⟨rfl, member, fun _ present => present⟩
  · simp only [LogHeader.entries_push]
    exact ⟨trivial, by simp, fun _ present => by simp [present]⟩

theorem logged_sync
    [DecidableEq Op]
    (logged : Logged roomy base journal abstract)
    {cache : Cache}
    {charged : OpContext}
    {log : Log}
    (runs : op ∈ journal.history.running)
    (section_ :
      cacheSyncSection abstract.log (journal.system.contexts op) blockNo =
        .ok (log, charged))
    (target : system =
      { journal.system with
        cache := cache
        contexts := Function.update journal.system.contexts op charged
        hold := Function.update journal.system.hold blockNo .held
        synced :=
          Function.update journal.system.synced blockNo
            (abstract.current blockNo) })
    (coherent :
      Coherent roomy system
        { abstract with
          pinned := Function.update abstract.pinned blockNo true
          log := log }) :
    Logged roomy base
      ⟨system, journal.history.next journal.system system
        (.sync op blockNo)⟩
      { abstract with
        pinned := Function.update abstract.pinned blockNo true
        log := log } := by
  rcases cacheSyncSection_mem section_ with ⟨outstanding, here, kept⟩
  refine ⟨coherent, logged.onDisk,
    logged.accounted.sync outstanding runs, ?_, ?_⟩
  · intro other outside
    have before := logged.synced other outside
    simp only [History.next, writesOf, List.map_append, List.map_cons,
      List.map_nil, applyWrites_append, applyWrites_cons, applyWrites_nil]
    subst target
    by_cases same : other = blockNo
    · subst same
      simp only [Function.update_self]
    · simp only [Function.update_of_ne same]
      exact before
  · intro record member
    rcases List.mem_append.mp member with old | new
    · exact kept _ (logged.listed record old)
    · rw [List.mem_singleton.mp new]
      exact here

/-- An ending operation is counted, so its first section is one of two. -/
theorem Logged.section_cases
    (logged : Logged roomy base journal abstract)
    (runs : op ∈ journal.history.running)
    {next : EndOp}
    {log : Log}
    (section_ : cacheEndOpSection abstract.log = .ok (next, log)) :
    (next = .leave ∧ abstract.log.outstanding ≠ 1 ∧
        log =
          { abstract.log with
            outstanding := abstract.log.outstanding - 1 }) ∨
      (next = .commit ∧ abstract.log.outstanding = 1 ∧
        log = { abstract.log with outstanding := 0, iscommit := true }) := by
  have outstanding := logged.accounted.outstanding
  have few := logged.accounted.few
  have positive : 0 < abstract.log.outstanding := by
    rw [outstanding]
    exact List.length_pos_of_mem runs
  have bounded : abstract.log.outstanding < usizeModulus := by
    simp only [opMaxNumBlocks, logMaxSize, blockSize] at few
    simp only [usizeModulus]
    omega
  rcases (cacheEndOpSection_cases positive bounded section_).2 with
    ⟨others, leaves, target⟩ | ⟨last, commits, target⟩
  · exact Or.inl ⟨leaves, by omega, target⟩
  · exact Or.inr ⟨commits, last, target⟩

theorem logged_leave
    [DecidableEq Op]
    (logged : Logged roomy base journal abstract)
    {log : Log}
    (runs : op ∈ journal.history.running)
    (section_ : cacheEndOpSection abstract.log = .ok (.leave, log))
    {cache : Cache}
    (target : system = { journal.system with cache := cache })
    (coherent : Coherent roomy system { abstract with log := log }) :
    Logged roomy base
      ⟨system, journal.history.next journal.system system (.endOp op)⟩
      { abstract with log := log } := by
  rcases logged.section_cases runs section_ with
    ⟨_, others, left⟩ | ⟨impossible, _⟩
  · have before : journal.system.cache.log = abstract.log :=
      congrArg Abstract.log logged.coherent.refines.seen
    have next :
        journal.history.next journal.system system (.endOp op) =
          { journal.history with
            running := journal.history.running.erase op
            ended := op :: journal.history.ended } := by
      simp only [History.next, before, if_neg others]
    have header : log.header = abstract.log.header := by rw [left]
    rw [next]
    refine ⟨coherent, logged.onDisk,
      logged.accounted.end runs (by rw [left]), ?_, ?_⟩
    · subst target
      exact logged.synced
    · simp only [header]
      exact logged.listed
  · simp at impossible

/-- What a commit writes is the version of the closed group. -/
theorem Logged.current_entry
    (logged : Logged roomy base journal abstract)
    (unheld : Unheld abstract)
    (member : blockNo ∈ abstract.log.header.entries) :
    abstract.current blockNo =
      applyWrites (version base journal.history.groups)
        (writesOf journal.history.pending) blockNo := by
  have agrees := logged.coherent.agrees
  have outside := agrees.entries blockNo member
  have unmodified : journal.system.hold blockNo ≠ .modified := by
    intro modified
    have taken : journal.system.hold blockNo ≠ .free := by simp [modified]
    have held := agrees.held_of_hold taken
    rw [unheld blockNo member] at held
    exact absurd held (by decide)
  rw [agrees.synced blockNo outside unmodified]
  exact logged.synced blockNo outside

/-- A commit closes the pending records into a group on disk. -/
theorem Logged.onDisk_commit
    (logged : Logged roomy base journal abstract)
    {log : Log}
    (header : log.header = abstract.log.header)
    (unheld : Unheld abstract)
    (committed : Committed roomy { abstract with log := log } after) :
    OnDisk roomy.layout base
      (journal.history.groups ++
        [⟨journal.history.pending, after.device.writes.length⟩])
      after.device := by
  have agrees := logged.coherent.agrees
  have fits : abstract.log.header.numBlocks ≤ logMaxSize :=
    (agrees.committable rfl).fits
  have entries := roomy.entries_encode fits
  have installing :
      installs abstract.current abstract.log.header.entries =
        installs
          (applyWrites (version base journal.history.groups)
            (writesOf journal.history.pending))
          abstract.log.header.entries := by
    apply List.map_congr_left
    intro blockNo member
    rw [logged.current_entry unheld member]
  have copied :
      ∀ blockNo ∈ abstract.log.header.entries,
        abstract.current
            (abstract.log.header.blockNo
              (abstract.log.header.entries.idxOf blockNo)) =
          applyWrites (version base journal.history.groups)
            (writesOf journal.history.pending) blockNo := by
    intro blockNo member
    rw [blockNo_idxOf member]
    exact logged.current_entry unheld member
  have grown :=
    logged.onDisk.commit
      (fun index => abstract.current (abstract.log.header.blockNo index))
      rfl (entries.symm ▸ agrees.listable) (entries.symm ▸ copied)
      (entries.symm ▸ logged.listed)
      (clearedHeader roomy abstract.log.header.clear rfl) rfl
  have device := committed.device
  simp only [committedDevice, header] at device
  rw [device]
  simp only [commitWrites, entries, installing, List.length_append] at grown ⊢
  exact grown

theorem logged_commit
    [DecidableEq Op]
    (logged : Logged roomy base journal abstract)
    {log : Log}
    (runs : op ∈ journal.history.running)
    (section_ : cacheEndOpSection abstract.log = .ok (.commit, log))
    (unheld : Unheld abstract)
    (committed : Committed roomy { abstract with log := log } after)
    {cache : Cache}
    (target : system = { journal.system with cache := cache })
    (coherent : Coherent roomy system after) :
    Logged roomy base
      ⟨system, journal.history.next journal.system system (.endOp op)⟩
      after := by
  rcases logged.section_cases runs section_ with
    ⟨impossible, _⟩ | ⟨_, last, closing⟩
  · simp at impossible
  · have before : journal.system.cache.log = abstract.log :=
      congrArg Abstract.log logged.coherent.refines.seen
    have device : system.cache.device = after.device :=
      congrArg Abstract.device coherent.refines.seen
    have header : log.header = abstract.log.header := by rw [closing]
    have next :
        journal.history.next journal.system system (.endOp op) =
          { running := journal.history.running.erase op
            ended := op :: journal.history.ended
            pending := []
            groups :=
              journal.history.groups ++
                [⟨journal.history.pending,
                  system.cache.device.writes.length⟩] } := by
      simp only [History.next, before, if_pos last]
    have onDisk := logged.onDisk_commit header unheld committed
    have ended : Accounted _ log :=
      logged.accounted.end runs (by rw [closing, last])
    have alone : journal.history.running.erase op = [] := by
      rw [← List.length_eq_zero_iff, List.length_erase_of_mem runs,
        ← logged.accounted.outstanding, last]
    have accounted : Accounted _ after.log :=
      ended.close alone (by rw [committed.log]; rfl)
        after.device.writes.length
    rw [next, device]
    refine ⟨coherent, onDisk, accounted, ?_, by simp⟩
    intro blockNo outside
    subst target
    rw [version_snoc]
    exact logged.synced blockNo outside

/-- Every call of an operation keeps the invariant. -/
theorem logged_step
    [DecidableEq Op]
    (logged : Logged roomy base journal abstract)
    {call : Call Op}
    (allowed : InOperations sblock journal call)
    {target : Journal Op}
    (stepped : stepJournal sblock journal call = .ok target) :
    ∃ after, Logged roomy base target after := by
  cases called : step sblock journal.system call with
  | error stop => simp [stepJournal, called, bind, Except.bind] at stepped
  | ok system =>
      simp only [stepJournal, called, bind, Except.bind,
        Except.ok.injEq] at stepped
      subst stepped
      rcases coherent_step logged.coherent allowed.1 called with
        ⟨after, coherent, moves⟩
      refine ⟨after, ?_⟩
      cases moves with
      | acquire outside free =>
          exact ⟨coherent, logged.onDisk, logged.accounted, logged.synced,
            logged.listed⟩
      | modify held =>
          exact ⟨coherent, logged.onDisk, logged.accounted, logged.synced,
            logged.listed⟩
      | sync held section_ =>
          exact logged_sync logged allowed.2 section_ rfl coherent
      | syncNull held => exact absurd allowed.2 id
      | release held =>
          exact ⟨coherent, logged.onDisk, logged.accounted, logged.synced,
            logged.listed⟩
      | beginOp admitted =>
          have fits : abstract.log.header.numBlocks ≤ logMaxSize :=
            (logged.coherent.agrees.committable rfl).fits
          exact ⟨coherent, logged.onDisk,
            logged.accounted.begin fits admitted allowed.2, logged.synced,
            logged.listed⟩
      | leave section_ =>
          exact logged_leave logged allowed.2 section_ rfl coherent
      | commit section_ unheld committed =>
          exact logged_commit logged allowed.2 section_ unheld committed rfl
            coherent

/-- A cache initialized on a disk with an empty log. -/
theorem logged_init
    {start : Cache}
    (empty : (LogHeader.decode (base sblock.headerBlock)).numBlocks = 0)
    (booted : initBcache sblock base = .ok start)
    (contexts : Op → OpContext) :
    ∃ initial, Logged roomy base (Journal.init start contexts) initial := by
  have installed : roomy.layout.Installed base base := by
    refine ⟨?_, fun _ _ => rfl⟩
    rw [Roomy.logged_eq, ← List.length_eq_zero_iff,
      LogHeader.length_entries, empty]
  rcases coherent_init installed.represents booted contexts with
    ⟨initial, coherent, recovered⟩
  have device : start.device = initial.device :=
    congrArg Abstract.device coherent.refines.seen
  have through := recovery_through installed.represents booted
  rw [device] at through
  refine ⟨initial, coherent, ⟨through.2, by simp [Journal.init], ?_⟩,
    ⟨?_, ?_, ?_, ?_, ?_, ?_, ?_⟩, ?_, ?_⟩
  · intro count
    exact ⟨0, Nat.le_refl _, by simp [Journal.init], through.1 count⟩
  · exact recovered.log.2.2
  · simp [Journal.init]
  · exact List.nodup_nil
  · simp [Journal.init]
  · simp [Journal.init]
  · simp [Journal.init, recordsOf]
  · simp [Journal.init, recordsOf]
  · intro blockNo outside
    have home := roomy.home_of_not_inLog outside
    have held := through.2.home blockNo home
    rw [← device] at held
    exact held
  · simp [Journal.init]

theorem logged_run
    [DecidableEq Op]
    (roomy : Roomy sblock)
    {start : Cache}
    (empty : (LogHeader.decode (base sblock.headerBlock)).numBlocks = 0)
    (booted : initBcache sblock base = .ok start)
    {contexts : Op → OpContext}
    {calls : List (Call Op)}
    (run :
      Run (Takes (stepJournal sblock)) (InOperations sblock)
        (Journal.init start contexts) calls journal) :
    ∃ abstract, Logged roomy base journal abstract := by
  let reached := fun journal : Journal Op =>
    ∃ abstract, Logged roomy base journal abstract
  have there : reached (Journal.init start contexts) :=
    logged_init empty booted contexts
  refine run.invariant there ?_
  rintro source call target ⟨abstract, logged⟩ allowed stepped
  exact logged_step logged allowed stepped

end Invariant

/-! ## Crash atomicity -/

/-- The disk holds a whole number of groups, among them every returned one. -/
structure WholeGroups
    (sblock : SuperBlock)
    (base : Disk)
    (history : History Op)
    (count included : Nat)
    (disk : Disk) : Prop where
  within : included ≤ history.groups.length
  /-- A commit whose `end_op` returned before the crash is included. -/
  returned :
    ∀ index group, history.groups[index]? = some group →
      group.writes ≤ count → index < included
  /-- Outside the log the disk holds the contents after these groups. -/
  contents :
    ∀ blockNo, ¬ sblock.InLog blockNo →
      disk blockNo = version base (history.groups.take included) blockNo
  /-- No operation is present in part. -/
  whole :
    ∀ present ∈ recordsOf (history.groups.take included),
      ∀ absent ∈
          recordsOf (history.groups.drop included) ++ history.pending,
        present.op ≠ absent.op
  header : (LogHeader.decode (disk sblock.headerBlock)).numBlocks = 0

/--
Cut a run of operations after any number of device writes and let any number
of recoveries be cut short.  The next recovery completes and restores a whole
number of groups.
-/
theorem crash_atomic
    [DecidableEq Op]
    (roomy : Roomy sblock)
    {base : Disk}
    (empty : (LogHeader.decode (base sblock.headerBlock)).numBlocks = 0)
    {start : Cache}
    (booted : initBcache sblock base = .ok start)
    {contexts : Op → OpContext}
    {calls : List (Call Op)}
    {journal : Journal Op}
    (run :
      Run (Takes (stepJournal sblock)) (InOperations sblock)
        (Journal.init start contexts) calls journal)
    (count : Nat)
    {crashed : Disk}
    (recovering :
      CutRecoveries sblock (journal.system.cache.device.cut count) crashed) :
    ∃ cache included,
      initBcache sblock crashed = .ok cache ∧
        WholeGroups sblock base journal.history count included
          cache.device.contents := by
  rcases logged_run roomy empty booted run with ⟨abstract, logged⟩
  have device : journal.system.cache.device = abstract.device :=
    congrArg Abstract.device logged.coherent.refines.seen
  rw [device] at recovering
  rcases logged.onDisk.cuts count with
    ⟨included, within, returned, represents⟩
  rcases recovery_restores represents recovering with
    ⟨cache, recovered, installed⟩
  refine ⟨cache, included, recovered, within, returned, ?_,
    logged.accounted.separate included, numBlocks_of_installed installed⟩
  intro blockNo outside
  exact installed.home blockNo (roomy.home_of_not_inLog outside)

/-- The discipline of operations, computed. -/
def inOperations
    (sblock : SuperBlock)
    (journal : Journal Nat) : Call Nat → Bool
  | .acquire blockNo => decide (¬ sblock.InLog blockNo)
  | .modify blockNo _ =>
      decide (journal.system.hold blockNo ≠ .free) &&
        decide (journal.history.running ≠ [])
  | .sync op blockNo =>
      decide (journal.system.hold blockNo ≠ .free) &&
        decide (op ∈ journal.history.running)
  | .syncNull _ => false
  | .release blockNo => decide (journal.system.hold blockNo = .held)
  | .beginOp op =>
      decide (op ∉ journal.history.running ∧ op ∉ journal.history.ended)
  | .endOp op => decide (op ∈ journal.history.running)

theorem inOperations_sound
    (journal : Journal Nat)
    (call : Call Nat)
    (checked : inOperations sblock journal call = true) :
    InOperations sblock journal call := by
  cases call with
  | syncNull blockNo => simp [inOperations] at checked
  | acquire blockNo =>
      simpa [inOperations, InOperations, Usage] using checked
  | modify blockNo data =>
      simpa [inOperations, InOperations, Usage] using checked
  | sync op blockNo =>
      simpa [inOperations, InOperations, Usage] using checked
  | release blockNo =>
      simpa [inOperations, InOperations, Usage] using checked
  | beginOp op =>
      simpa [inOperations, InOperations, Usage] using checked
  | endOp op =>
      simpa [inOperations, InOperations, Usage] using checked

/-- Two overlapping operations, the first of which writes block 300. -/
def overlapping : List (Call Nat) :=
  [.beginOp 0, .beginOp 1, .acquire 300, .modify 300 fun _ => 1,
    .sync 0 300, .release 300, .endOp 0, .endOp 1]

/-- The crash comes after the header of the commit, and again in recovery. -/
theorem crash_atomic_overlapping :
    ∃ start journal cache included,
      initBcache roomySuperBlock zeroDisk = .ok start ∧
        Run (Takes (stepJournal roomySuperBlock))
          (InOperations roomySuperBlock)
          (Journal.init start fun _ => { rm := 0 }) overlapping journal ∧
        initBcache roomySuperBlock
            (journal.system.cache.device.cut 3) = .ok cache ∧
        ∃ final,
          initBcache roomySuperBlock (cache.device.cut 1) = .ok final ∧
            WholeGroups roomySuperBlock zeroDisk journal.history 3 included
              final.device.contents := by
  have installed := zeroDisk_installed
  have empty := numBlocks_of_installed installed
  rcases initBcache_spec installed.represents with ⟨start, _, booted, _⟩
  have computed :
      (match initBcache roomySuperBlock zeroDisk with
        | .ok start =>
            (executeChecked (stepJournal roomySuperBlock)
              (inOperations roomySuperBlock)
              (Journal.init start fun _ => { rm := 0 })
              overlapping).isSome
        | .error _ => false) = true := by
    decide +kernel
  rw [booted] at computed
  rcases Option.isSome_iff_exists.mp computed with ⟨journal, executed⟩
  have run := Run.of_executeChecked inOperations_sound executed
  rcases crash_atomic roomySuperBlock_roomy empty booted run 3 .none with
    ⟨cache, _, recovered, _⟩
  rcases crash_atomic roomySuperBlock_roomy empty booted run 3
      (.again .none recovered 1) with
    ⟨final, included, again, whole⟩
  exact ⟨start, journal, cache, included, booted, run, recovered, final,
    again, whole⟩

end FudanOS.Fs.CrashAtomicity
