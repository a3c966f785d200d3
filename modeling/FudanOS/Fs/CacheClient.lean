import FudanOS.Fs.LogCommit
import FudanOS.Library.Runs

/-!
# Callers of the block cache

A run of the cache is a sequence of completed calls.  The system records,
beside the cache and the contexts of the callers, how each block is used and
what was last synced for it.  `Coherent` ties these records to the cache: a
block which is not modified at the moment shows its last synced contents, and
every modification which is not on disk is held or pinned.
-/

namespace FudanOS.Fs.CacheClient

open FudanOS.Fs.Defines
open FudanOS.Fs.LogSections
open FudanOS.Fs.BlockCache
open FudanOS.Fs.CacheRefinement
open FudanOS.Fs.LogCommit
open FudanOS.Library.RedoLog
open FudanOS.Library.Runs

/-- How the callers use a block. -/
inductive Hold where
  | free
  | held
  | modified
  deriving DecidableEq

/-- The cache with the records of its callers. -/
structure System (Ctx : Type) where
  cache : Cache
  contexts : Ctx → OpContext
  hold : BlockNo → Hold
  /-- The last synced contents, at first the contents of the disk. -/
  synced : Disk

/-- The calls of the cache, and the write of a caller to a block. -/
inductive Call (Ctx : Type) where
  | acquire (blockNo : BlockNo)
  | modify (blockNo : BlockNo) (data : BlockData)
  | sync (ctx : Ctx) (blockNo : BlockNo)
  | syncNull (blockNo : BlockNo)
  | release (blockNo : BlockNo)
  | beginOp (ctx : Ctx)
  | endOp (ctx : Ctx)

/-- The callers of a cache which has just been initialized. -/
def System.init {Ctx : Type} (cache : Cache) (contexts : Ctx → OpContext) :
    System Ctx where
  cache := cache
  contexts := contexts
  hold := fun _ => .free
  synced := cache.device.contents

variable
    {Ctx : Type}
    {sblock : SuperBlock}

/-- Note that the present data of a block are synced. -/
def System.noteSync
    (system : System Ctx)
    (cache : Cache)
    (blockNo : BlockNo) : System Ctx :=
  { system with
    cache := cache
    hold := Function.update system.hold blockNo .held
    synced :=
      Function.update system.synced blockNo (status cache blockNo).data }

/-- One call. -/
def step
    [DecidableEq Ctx]
    (sblock : SuperBlock)
    (system : System Ctx) :
    Call Ctx → Except Stop (System Ctx)
  | .acquire blockNo => do
      let cache ← cacheAcquire system.cache blockNo
      .ok { system with
        cache := cache
        hold := Function.update system.hold blockNo .held }
  | .modify blockNo data => do
      let cache ← setData system.cache blockNo data
      .ok { system with
        cache := cache
        hold := Function.update system.hold blockNo .modified }
  | .sync ctx blockNo => do
      let (cache, charged) ←
        cacheSync system.cache (system.contexts ctx) blockNo
      .ok { system.noteSync cache blockNo with
        contexts := Function.update system.contexts ctx charged }
  | .syncNull blockNo => do
      let cache ← cacheSyncNull system.cache blockNo
      .ok (system.noteSync cache blockNo)
  | .release blockNo => do
      let cache ← cacheRelease system.cache blockNo
      .ok { system with
        cache := cache
        hold := Function.update system.hold blockNo .free }
  | .beginOp ctx => do
      let (cache, started) ← cacheBeginOp system.cache
      .ok { system with
        cache := cache
        contexts := Function.update system.contexts ctx started }
  | .endOp _ => do
      let cache ← cacheEndOp sblock system.cache
      .ok { system with cache := cache }

/--
What every caller respects: blocks of the log are left alone, blocks are used
while they are held, and a modified block is synced before it is released.
-/
def Usage (sblock : SuperBlock) (system : System Ctx) : Call Ctx → Prop
  | .acquire blockNo => ¬ sblock.InLog blockNo
  | .modify blockNo _ => system.hold blockNo ≠ .free
  | .sync _ blockNo => system.hold blockNo ≠ .free
  | .syncNull blockNo => system.hold blockNo ≠ .free
  | .release blockNo => system.hold blockNo = .held
  | .beginOp _ => True
  | .endOp _ => True

/-- The records of the callers agree with the cache. -/
structure Agrees
    (roomy : Roomy sblock)
    (system : System Ctx)
    (abstract : Abstract) : Prop where
  held : ∀ blockNo, abstract.held blockNo = true ↔
    system.hold blockNo ≠ .free
  outside : ∀ blockNo, system.hold blockNo ≠ .free → ¬ sblock.InLog blockNo
  saved :
    ∀ blockNo, system.hold blockNo ≠ .modified →
      abstract.pinned blockNo = false →
        abstract.current blockNo = abstract.device.contents blockNo
  synced :
    ∀ blockNo, ¬ sblock.InLog blockNo → system.hold blockNo ≠ .modified →
      abstract.current blockNo = system.synced blockNo
  listable : roomy.layout.Listable abstract.log.header.entries
  entries :
    ∀ blockNo ∈ abstract.log.header.entries, ¬ sblock.InLog blockNo
  idle : abstract.log.iscommit = false

/-- A cache which agrees with the records of its callers. -/
structure Coherent
    (roomy : Roomy sblock)
    (system : System Ctx)
    (abstract : Abstract) : Prop where
  refines : Refines sblock system.cache abstract
  agrees : Agrees roomy system abstract

/-! ## The records stay in agreement -/

section Agreement

variable
    {roomy : Roomy sblock}
    {system : System Ctx}
    {abstract : Abstract}
    {blockNo : BlockNo}
    {ctx : Ctx}

theorem Agrees.held_of_hold
    (agrees : Agrees roomy system abstract)
    (held : system.hold blockNo ≠ .free) :
    abstract.held blockNo = true :=
  (agrees.held blockNo).mpr held

theorem Agrees.committable
    (agrees : Agrees roomy system abstract)
    {log : Log}
    (header : log.header = abstract.log.header) :
    Committable roomy { abstract with log := log } where
  listable := by
    rw [show ({ abstract with log := log } : Abstract).log.header =
      abstract.log.header from header]
    exact agrees.listable
  slots := by
    intro index below
    by_contra taken
    have held := (agrees.held _).mp (Bool.eq_true_of_not_eq_false taken)
    exact agrees.outside _ held (roomy.slot_inLog below)

theorem Agrees.pinning
    (agrees : Agrees roomy system abstract)
    (held : system.hold blockNo ≠ .free)
    {charged : OpContext}
    {log : Log}
    (section_ :
      cacheSyncSection abstract.log (system.contexts ctx) blockNo =
        .ok (log, charged)) :
    roomy.layout.Listable log.header.entries ∧
      (∀ other ∈ log.header.entries, ¬ sblock.InLog other) ∧
      log.iscommit = false := by
  rcases cacheSyncSection_cases section_ with
    ⟨_, rfl, _⟩ | ⟨fresh, _, room, rfl, _⟩
  · exact ⟨agrees.listable, agrees.entries, agrees.idle⟩
  · have outside := agrees.outside blockNo held
    simp only [LogHeader.entries_push]
    refine ⟨⟨?_, ?_, ?_⟩, ?_, agrees.idle⟩
    · rw [← List.concat_eq_append]
      exact agrees.listable.nodup.concat fresh
    · intro other member
      rcases List.mem_append.mp member with old | new
      · exact agrees.listable.home other old
      · rw [List.mem_singleton.mp new]
        exact roomy.home_of_not_inLog outside
    · rw [List.length_append, LogHeader.length_entries]
      exact room
    · intro other member
      rcases List.mem_append.mp member with old | new
      · exact agrees.entries other old
      · rw [List.mem_singleton.mp new]
        exact outside

theorem agrees_acquire
    (agrees : Agrees roomy system abstract)
    {cache : Cache}
    (outside : ¬ sblock.InLog blockNo)
    (free : abstract.held blockNo = false) :
    Agrees roomy
      { system with
        cache := cache
        hold := Function.update system.hold blockNo .held }
      { abstract with
        held := Function.update abstract.held blockNo true } := by
  have released : system.hold blockNo = .free := by
    by_contra taken
    rw [agrees.held_of_hold taken] at free
    exact absurd free (by decide)
  have notModified :
      ∀ other,
        Function.update system.hold blockNo .held other ≠ .modified →
          system.hold other ≠ .modified := by
    intro other unmodified
    by_cases same : other = blockNo
    · rw [same, released]
      decide
    · rwa [Function.update_of_ne same] at unmodified
  refine ⟨?_, ?_, ?_, ?_, agrees.listable, agrees.entries, agrees.idle⟩
  · intro other
    by_cases same : other = blockNo
    · subst same
      simp
    · simp only [Function.update_of_ne same]
      exact agrees.held other
  · intro other taken
    by_cases same : other = blockNo
    · rwa [same]
    · simp only [Function.update_of_ne same] at taken
      exact agrees.outside other taken
  · exact fun other unmodified unpinned =>
      agrees.saved other (notModified other unmodified) unpinned
  · exact fun other out unmodified =>
      agrees.synced other out (notModified other unmodified)

/-- Calls on a held block keep what is known of held blocks. -/
theorem Agrees.keep_held
    (agrees : Agrees roomy system abstract)
    (held : system.hold blockNo ≠ .free)
    (hold : Hold)
    (stays : hold ≠ .free) :
    (∀ other, abstract.held other = true ↔
        Function.update system.hold blockNo hold other ≠ .free) ∧
      ∀ other, Function.update system.hold blockNo hold other ≠ .free →
        ¬ sblock.InLog other := by
  constructor
  · intro other
    by_cases same : other = blockNo
    · subst same
      simp [agrees.held_of_hold held, stays]
    · rw [Function.update_of_ne same]
      exact agrees.held other
  · intro other taken
    by_cases same : other = blockNo
    · rw [same]
      exact agrees.outside blockNo held
    · rw [Function.update_of_ne same] at taken
      exact agrees.outside other taken

theorem agrees_modify
    (agrees : Agrees roomy system abstract)
    {cache : Cache}
    {data : BlockData}
    (held : system.hold blockNo ≠ .free) :
    Agrees roomy
      { system with
        cache := cache
        hold := Function.update system.hold blockNo .modified }
      { abstract with
        current := Function.update abstract.current blockNo data } := by
  have kept := agrees.keep_held held .modified (by decide)
  refine ⟨kept.1, kept.2, ?_, ?_, agrees.listable, agrees.entries,
    agrees.idle⟩
  · intro other unmodified unpinned
    by_cases same : other = blockNo
    · subst same
      simp at unmodified
    · simp only [Function.update_of_ne same] at unmodified ⊢
      exact agrees.saved other unmodified unpinned
  · intro other outside unmodified
    by_cases same : other = blockNo
    · subst same
      simp at unmodified
    · simp only [Function.update_of_ne same] at unmodified ⊢
      exact agrees.synced other outside unmodified

/-- A sync makes the present data of its block the last synced ones. -/
theorem Agrees.keep_synced
    (agrees : Agrees roomy system abstract)
    (blockNo : BlockNo) :
    ∀ other, ¬ sblock.InLog other →
      Function.update system.hold blockNo .held other ≠ .modified →
        abstract.current other =
          Function.update system.synced blockNo
            (abstract.current blockNo) other := by
  intro other outside unmodified
  by_cases same : other = blockNo
  · subst same
    rw [Function.update_self]
  · rw [Function.update_of_ne same] at unmodified ⊢
    exact agrees.synced other outside unmodified

theorem agrees_syncNull
    (agrees : Agrees roomy system abstract)
    {cache : Cache}
    (held : system.hold blockNo ≠ .free) :
    Agrees roomy
      { system with
        cache := cache
        hold := Function.update system.hold blockNo .held
        synced :=
          Function.update system.synced blockNo
            (abstract.current blockNo) }
      { abstract with
        device :=
          abstract.device.write blockNo (abstract.current blockNo) } := by
  have kept := agrees.keep_held held .held (by decide)
  refine ⟨kept.1, kept.2, ?_, agrees.keep_synced blockNo, agrees.listable,
    agrees.entries, agrees.idle⟩
  intro other unmodified unpinned
  by_cases same : other = blockNo
  · subst same
    simp
  · simp only [Function.update_of_ne same, Device.contents_write]
      at unmodified ⊢
    exact agrees.saved other unmodified unpinned

theorem agrees_release
    (agrees : Agrees roomy system abstract)
    {cache : Cache}
    (held : system.hold blockNo = .held) :
    Agrees roomy
      { system with
        cache := cache
        hold := Function.update system.hold blockNo .free }
      { abstract with
        held := Function.update abstract.held blockNo false } := by
  have notModified :
      ∀ other,
        Function.update system.hold blockNo .free other ≠ .modified →
          system.hold other ≠ .modified := by
    intro other unmodified
    by_cases same : other = blockNo
    · rw [same, held]
      decide
    · rwa [Function.update_of_ne same] at unmodified
  refine ⟨?_, ?_, ?_, ?_, agrees.listable, agrees.entries, agrees.idle⟩
  · intro other
    by_cases same : other = blockNo
    · subst same
      simp
    · simp only [Function.update_of_ne same]
      exact agrees.held other
  · intro other taken
    by_cases same : other = blockNo
    · subst same
      simp at taken
    · simp only [Function.update_of_ne same] at taken
      exact agrees.outside other taken
  · exact fun other unmodified unpinned =>
      agrees.saved other (notModified other unmodified) unpinned
  · exact fun other out unmodified =>
      agrees.synced other out (notModified other unmodified)

theorem agrees_commit
    (agrees : Agrees roomy system abstract)
    {cache : Cache}
    {log : Log}
    {after : Abstract}
    (header : log.header = abstract.log.header)
    (unheld : Unheld abstract)
    (committed : Committed roomy { abstract with log := log } after)
    (clean : Clean after) :
    Agrees roomy { system with cache := cache } after := by
  have committable := agrees.committable header
  have entries :
      after.log.header.entries = [] := by
    rw [committed.log]
    exact LogHeader.entries_clear _
  refine ⟨?_, agrees.outside, ?_, ?_, ?_, ?_, ?_⟩
  · intro blockNo
    rw [committed.held]
    exact agrees.held blockNo
  · intro blockNo unmodified unpinned
    cases free : after.held blockNo with
    | false => exact clean blockNo free unpinned
    | true =>
        -- A block which stays held is not among the committed ones.
        rw [committed.held] at free
        have outside := agrees.outside blockNo ((agrees.held blockNo).mp free)
        have home := roomy.home_of_not_inLog outside
        have unlisted : blockNo ∉ log.header.entries := by
          intro member
          rw [header] at member
          rw [unheld blockNo member] at free
          exact absurd free (by decide)
        rw [committed.pinned, if_neg unlisted] at unpinned
        rw [committed.current blockNo home, committed.device,
          contents_committedDevice committable home unlisted]
        exact agrees.saved blockNo unmodified unpinned
  · intro blockNo outside unmodified
    rw [committed.current blockNo (roomy.home_of_not_inLog outside)]
    exact agrees.synced blockNo outside unmodified
  · rw [entries]
    exact Layout.Listable.nil
  · rw [entries]
    simp
  · rw [committed.log]
    rfl

end Agreement

/-! ## What a call can do -/

section Steps

variable [DecidableEq Ctx]

/--
The effect of a completed call on what callers see, together with the facts
its success tells about the state before.
-/
inductive Moves
    (roomy : Roomy sblock)
    (system : System Ctx)
    (abstract : Abstract) :
    Call Ctx → System Ctx → Abstract → Prop where
  | acquire
      (outside : ¬ sblock.InLog blockNo)
      (free : abstract.held blockNo = false) :
      Moves roomy system abstract (.acquire blockNo)
        { system with
          cache := cache
          hold := Function.update system.hold blockNo .held }
        { abstract with
          held := Function.update abstract.held blockNo true }
  | modify
      (held : system.hold blockNo ≠ .free) :
      Moves roomy system abstract (.modify blockNo data)
        { system with
          cache := cache
          hold := Function.update system.hold blockNo .modified }
        { abstract with
          current := Function.update abstract.current blockNo data }
  | sync
      (held : system.hold blockNo ≠ .free)
      (section_ :
        cacheSyncSection abstract.log (system.contexts ctx) blockNo =
          .ok (log, charged)) :
      Moves roomy system abstract (.sync ctx blockNo)
        { system with
          cache := cache
          contexts := Function.update system.contexts ctx charged
          hold := Function.update system.hold blockNo .held
          synced :=
            Function.update system.synced blockNo
              (abstract.current blockNo) }
        { abstract with
          pinned := Function.update abstract.pinned blockNo true
          log := log }
  | syncNull
      (held : system.hold blockNo ≠ .free) :
      Moves roomy system abstract (.syncNull blockNo)
        { system with
          cache := cache
          hold := Function.update system.hold blockNo .held
          synced :=
            Function.update system.synced blockNo
              (abstract.current blockNo) }
        { abstract with
          device :=
            abstract.device.write blockNo (abstract.current blockNo) }
  | release
      (held : system.hold blockNo = .held) :
      Moves roomy system abstract (.release blockNo)
        { system with
          cache := cache
          hold := Function.update system.hold blockNo .free }
        { abstract with
          held := Function.update abstract.held blockNo false }
  | beginOp
      (admitted : mustWait abstract.log = false) :
      Moves roomy system abstract (.beginOp ctx)
        { system with
          cache := cache
          contexts := Function.update system.contexts ctx { rm := 0 } }
        { abstract with log := admitOp abstract.log }
  | leave
      (section_ : cacheEndOpSection abstract.log = .ok (.leave, log)) :
      Moves roomy system abstract (.endOp ctx)
        { system with cache := cache }
        { abstract with log := log }
  | commit
      (section_ : cacheEndOpSection abstract.log = .ok (.commit, log))
      (unheld : Unheld abstract)
      (committed : Committed roomy { abstract with log := log } after) :
      Moves roomy system abstract (.endOp ctx)
        { system with cache := cache }
        after

variable
    {roomy : Roomy sblock}
    {system target : System Ctx}
    {abstract : Abstract}
    {blockNo : BlockNo}
    {ctx : Ctx}

theorem step_acquire_moves
    (coherent : Coherent roomy system abstract)
    (outside : ¬ sblock.InLog blockNo)
    (stepped : step sblock system (.acquire blockNo) = .ok target) :
    ∃ after,
      Refines sblock target.cache after ∧
        Moves roomy system abstract (.acquire blockNo) target after := by
  have refines := coherent.refines
  cases free : abstract.held blockNo with
  | true =>
      simp [step, bind, Except.bind, cacheAcquire_held refines free]
        at stepped
  | false =>
      rcases cacheAcquire_spec refines
          (roomy.home_of_not_inLog outside).1 free with
        ⟨cache, acquired, cacheRefines⟩
      simp only [step, bind, Except.bind, acquired, Except.ok.injEq]
        at stepped
      subst stepped
      exact ⟨_, cacheRefines, Moves.acquire outside free⟩

theorem step_modify_moves
    (coherent : Coherent roomy system abstract)
    {data : BlockData}
    (held : system.hold blockNo ≠ .free)
    (stepped : step sblock system (.modify blockNo data) = .ok target) :
    ∃ after,
      Refines sblock target.cache after ∧
        Moves roomy system abstract (.modify blockNo data) target after := by
  rcases setData_spec coherent.refines
      (coherent.agrees.held_of_hold held) data with
    ⟨cache, written, cacheRefines⟩
  simp only [step, bind, Except.bind, written, Except.ok.injEq] at stepped
  subst stepped
  exact ⟨_, cacheRefines, Moves.modify held⟩

theorem step_sync_moves
    (coherent : Coherent roomy system abstract)
    (held : system.hold blockNo ≠ .free)
    (stepped : step sblock system (.sync ctx blockNo) = .ok target) :
    ∃ after,
      Refines sblock target.cache after ∧
        Moves roomy system abstract (.sync ctx blockNo) target after := by
  rcases setPinned_spec coherent.refines
      (coherent.agrees.held_of_hold held) true with
    ⟨cache, pinned, cacheRefines⟩
  have log : cache.log = abstract.log :=
    congrArg Abstract.log cacheRefines.seen
  simp only [step, cacheSync, bind, Except.bind, pinned, log] at stepped
  cases synced :
      cacheSyncSection abstract.log (system.contexts ctx) blockNo with
  | error panic => simp [synced] at stepped
  | ok result =>
      rcases result with ⟨newLog, charged⟩
      simp only [synced, Except.ok.injEq] at stepped
      subst stepped
      have logged := cacheRefines.withLog newLog
      refine ⟨_, logged, ?_⟩
      have data :
          (status { cache with log := newLog } blockNo).data =
            abstract.current blockNo :=
        congrArg Status.data (logged.status blockNo)
      simp only [System.noteSync, data]
      exact Moves.sync held synced

theorem step_syncNull_moves
    (coherent : Coherent roomy system abstract)
    (held : system.hold blockNo ≠ .free)
    (stepped : step sblock system (.syncNull blockNo) = .ok target) :
    ∃ after,
      Refines sblock target.cache after ∧
        Moves roomy system abstract (.syncNull blockNo) target after := by
  rcases cacheSyncNull_spec coherent.refines
      (coherent.agrees.held_of_hold held) with
    ⟨cache, written, cacheRefines⟩
  simp only [step, bind, Except.bind, written, Except.ok.injEq] at stepped
  subst stepped
  refine ⟨_, cacheRefines, ?_⟩
  have data : (status cache blockNo).data = abstract.current blockNo :=
    congrArg Status.data (cacheRefines.status blockNo)
  simp only [System.noteSync, data]
  exact Moves.syncNull held

theorem step_release_moves
    (coherent : Coherent roomy system abstract)
    (held : system.hold blockNo = .held)
    (stepped : step sblock system (.release blockNo) = .ok target) :
    ∃ after,
      Refines sblock target.cache after ∧
        Moves roomy system abstract (.release blockNo) target after := by
  have notFree : system.hold blockNo ≠ .free := by simp [held]
  have notModified : system.hold blockNo ≠ .modified := by simp [held]
  rcases cacheRelease_spec coherent.refines
      (coherent.agrees.held_of_hold notFree)
      (coherent.agrees.saved blockNo notModified) with
    ⟨cache, released, cacheRefines⟩
  simp only [step, bind, Except.bind, released, Except.ok.injEq] at stepped
  subst stepped
  exact ⟨_, cacheRefines, Moves.release held⟩

theorem step_beginOp_moves
    (coherent : Coherent roomy system abstract)
    (stepped : step sblock system (.beginOp ctx) = .ok target) :
    ∃ after,
      Refines sblock target.cache after ∧
        Moves roomy system abstract (.beginOp ctx) target after := by
  have log : system.cache.log = abstract.log :=
    congrArg Abstract.log coherent.refines.seen
  cases waits : mustWait abstract.log with
  | true =>
      simp [step, cacheBeginOp, log, waits, bind, Except.bind] at stepped
  | false =>
      simp only [step, cacheBeginOp, log, waits, bind, Except.bind,
        Bool.false_eq_true, if_false, Except.ok.injEq] at stepped
      subst stepped
      exact ⟨_, coherent.refines.withLog _, Moves.beginOp waits⟩

theorem step_endOp_moves
    (coherent : Coherent roomy system abstract)
    (stepped : step sblock system (.endOp ctx) = .ok target) :
    ∃ after,
      Refines sblock target.cache after ∧
        Moves roomy system abstract (.endOp ctx) target after := by
  have log : system.cache.log = abstract.log :=
    congrArg Abstract.log coherent.refines.seen
  cases ended : cacheEndOpSection abstract.log with
  | error panic =>
      simp [step, cacheEndOp, log, ended, bind, Except.bind] at stepped
  | ok result =>
      rcases result with ⟨next, newLog⟩
      have header := cacheEndOpSection_header ended
      have logged := coherent.refines.withLog newLog
      cases next with
      | leave =>
          simp only [step, cacheEndOp, log, ended, bind, Except.bind,
            Except.ok.injEq] at stepped
          subst stepped
          exact ⟨_, logged, Moves.leave ended⟩
      | commit =>
          simp only [step, cacheEndOp, log, ended, bind, Except.bind]
            at stepped
          cases committed :
              commit sblock { system.cache with log := newLog } with
          | error stop => simp [committed] at stepped
          | ok cache =>
              simp only [committed, Except.ok.injEq] at stepped
              subst stepped
              have committable := coherent.agrees.committable header.1
              have unheld :=
                unheld_of_commit logged committable committed
              rcases commit_spec logged committable unheld with
                ⟨same, after, committed', afterRefines, effect⟩
              rw [committed] at committed'
              cases committed'
              refine ⟨after, afterRefines, Moves.commit ended ?_ effect⟩
              intro blockNo member
              rw [← header.1] at member
              exact unheld blockNo member

theorem step_moves
    (coherent : Coherent roomy system abstract)
    {call : Call Ctx}
    (usage : Usage sblock system call)
    (stepped : step sblock system call = .ok target) :
    ∃ after,
      Refines sblock target.cache after ∧
        Moves roomy system abstract call target after := by
  cases call with
  | acquire blockNo => exact step_acquire_moves coherent usage stepped
  | modify blockNo data => exact step_modify_moves coherent usage stepped
  | sync ctx blockNo => exact step_sync_moves coherent usage stepped
  | syncNull blockNo => exact step_syncNull_moves coherent usage stepped
  | release blockNo => exact step_release_moves coherent usage stepped
  | beginOp ctx => exact step_beginOp_moves coherent stepped
  | endOp ctx => exact step_endOp_moves coherent stepped

theorem agrees_sync
    (agrees : Agrees roomy system abstract)
    {cache : Cache}
    {charged : OpContext}
    {log : Log}
    (held : system.hold blockNo ≠ .free)
    (section_ :
      cacheSyncSection abstract.log (system.contexts ctx) blockNo =
        .ok (log, charged)) :
    Agrees roomy
      { system with
        cache := cache
        contexts := Function.update system.contexts ctx charged
        hold := Function.update system.hold blockNo .held
        synced :=
          Function.update system.synced blockNo
            (abstract.current blockNo) }
      { abstract with
        pinned := Function.update abstract.pinned blockNo true
        log := log } := by
  have kept := agrees.keep_held held .held (by decide)
  rcases agrees.pinning held section_ with ⟨listable, entries, idle⟩
  refine ⟨kept.1, kept.2, ?_, agrees.keep_synced blockNo, listable, entries,
    idle⟩
  intro other unmodified unpinned
  by_cases same : other = blockNo
  · subst same
    simp at unpinned
  · simp only [Function.update_of_ne same] at unmodified unpinned
    exact agrees.saved other unmodified unpinned

theorem agrees_moves
    (agrees : Agrees roomy system abstract)
    {call : Call Ctx}
    {after : Abstract}
    (moves : Moves roomy system abstract call target after)
    (clean : Clean after) :
    Agrees roomy target after := by
  cases moves with
  | acquire outside free => exact agrees_acquire agrees outside free
  | modify held => exact agrees_modify agrees held
  | sync held section_ => exact agrees_sync agrees held section_
  | syncNull held => exact agrees_syncNull agrees held
  | release held => exact agrees_release agrees held
  | beginOp admitted =>
      exact ⟨agrees.held, agrees.outside, agrees.saved, agrees.synced,
        agrees.listable, agrees.entries, agrees.idle⟩
  | leave section_ =>
      rcases cacheEndOpSection_header section_ with ⟨header, iscommit⟩
      refine ⟨agrees.held, agrees.outside, agrees.saved, agrees.synced,
        ?_, ?_, (iscommit rfl).trans agrees.idle⟩
      · simp only [header]
        exact agrees.listable
      · simp only [header]
        exact agrees.entries
  | commit section_ unheld committed =>
      exact agrees_commit agrees (cacheEndOpSection_header section_).1
        unheld committed clean

/-- Every completed call keeps the cache coherent. -/
theorem coherent_step
    (coherent : Coherent roomy system abstract)
    {call : Call Ctx}
    (usage : Usage sblock system call)
    (stepped : step sblock system call = .ok target) :
    ∃ after,
      Coherent roomy target after ∧
        Moves roomy system abstract call target after := by
  rcases step_moves coherent usage stepped with ⟨after, refines, moves⟩
  exact ⟨after, ⟨refines, agrees_moves coherent.agrees moves refines.clean⟩,
    moves⟩

end Steps

end FudanOS.Fs.CacheClient
