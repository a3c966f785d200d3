import FudanOS.Fs.CacheClient

/-!
# One thread sees a plain block store

A single thread which uses the block cache through its calls finds in every
block the contents it last synced, whatever was evicted, read again, committed
or copied to the log in between.
-/

namespace FudanOS.Fs.BlockStore

open FudanOS.Fs.Defines
open FudanOS.Fs.LogSections
open FudanOS.Fs.BlockCache
open FudanOS.Fs.CacheRefinement
open FudanOS.Fs.LogCommit
open FudanOS.Fs.CacheClient
open FudanOS.Library.RedoLog
open FudanOS.Library.Runs

variable
    {Ctx : Type}
    {sblock : SuperBlock}

/--
What a single thread respects on top of the common usage: it would wait for
itself if it acquired a held block again or ended an operation with a block
in hand.
-/
def SingleThread
    (sblock : SuperBlock)
    (system : System Ctx)
    (call : Call Ctx) : Prop :=
  Usage sblock system call ∧
    match call with
    | .acquire blockNo => system.hold blockNo = .free
    | .endOp _ => ∀ blockNo, system.hold blockNo = .free
    | _ => True

/-- A cache which has just been initialized is coherent. -/
theorem coherent_init
    {roomy : Roomy sblock}
    {contents disk : Disk}
    (represents : roomy.layout.Represents contents disk)
    {start : Cache}
    (booted : initBcache sblock disk = .ok start)
    (contexts : Ctx → OpContext) :
    ∃ abstract,
      Coherent roomy (System.init start contexts) abstract ∧
        Recovered roomy contents disk abstract := by
  rcases initBcache_spec represents with
    ⟨result, after, initialized, refines, recovered⟩
  rw [booted] at initialized
  cases initialized
  have entries : after.log.header.entries = [] := by
    rw [← List.length_eq_zero_iff, LogHeader.length_entries]
    exact recovered.log.1
  have clean :
      ∀ blockNo, after.current blockNo = after.device.contents blockNo :=
    fun blockNo =>
      refines.clean blockNo (recovered.held blockNo)
        (recovered.pinned blockNo)
  refine ⟨after, ⟨refines, ?_, ?_, ?_, ?_, ?_, ?_, ?_⟩, recovered⟩
  · intro blockNo
    simp [recovered.held, System.init]
  · intro blockNo held
    simp [System.init] at held
  · exact fun blockNo _ _ => clean blockNo
  · intro blockNo _ _
    rw [clean blockNo, ← refines.seen]
    rfl
  · rw [entries]
    exact Layout.Listable.nil
  · rw [entries]
    simp
  · exact recovered.log.2.1

/-- Every state of a run is coherent. -/
theorem coherent_run
    [DecidableEq Ctx]
    {roomy : Roomy sblock}
    {allowed : System Ctx → Call Ctx → Prop}
    (usage :
      ∀ system call, allowed system call → Usage sblock system call)
    {start finish : System Ctx}
    (initially : ∃ abstract, Coherent roomy start abstract)
    {calls : List (Call Ctx)}
    (run : Run (Takes (step sblock)) allowed start calls finish) :
    ∃ abstract, Coherent roomy finish abstract := by
  let reached := fun system : System Ctx =>
    ∃ abstract, Coherent roomy system abstract
  have there : reached start := initially
  refine run.invariant there ?_
  rintro source call target ⟨abstract, coherent⟩ permitted stepped
  rcases coherent_step coherent (usage source call permitted) stepped with
    ⟨after, afterCoherent, _⟩
  exact ⟨after, afterCoherent⟩

/-- The pointer which `cache_acquire` returns is the first of the list. -/
theorem cacheAcquire_head
    {cache target : Cache}
    {blockNo : BlockNo}
    (acquired : cacheAcquire cache blockNo = .ok target) :
    ∃ block rest,
      target.head = block :: rest ∧ block.blockNo = blockNo := by
  unfold cacheAcquire at acquired
  split at acquired
  · rename_i block found
    split_ifs at acquired
    cases acquired
    exact ⟨_, _, rfl, (lookup_some found).2⟩
  · cases acquired
    exact ⟨_, _, rfl, rfl⟩

/-- What a thread which follows the rules gets from the next call. -/
structure ActsAsStore
    (sblock : SuperBlock)
    (system : System Ctx) : Prop where
  /-- `acquire` returns the block with its last synced contents. -/
  acquire :
    ∀ blockNo,
      ¬ sblock.InLog blockNo → system.hold blockNo = .free →
        ∃ target block rest,
          cacheAcquire system.cache blockNo = .ok target ∧
            target.head = block :: rest ∧
            block.blockNo = blockNo ∧
            block.data = system.synced blockNo
  /-- `end_op` returns when no block is held. -/
  endOp :
    (∀ blockNo, system.hold blockNo = .free) →
      ∃ target, cacheEndOp sblock system.cache = .ok target
  nodup : (system.cache.head.map Block.blockNo).Nodup
  length : system.cache.head.length = system.cache.blockNum

theorem Coherent.actsAsStore
    {roomy : Roomy sblock}
    {system : System Ctx}
    {abstract : Abstract}
    (coherent : Coherent roomy system abstract) :
    ActsAsStore sblock system := by
  have agrees := coherent.agrees
  have refines := coherent.refines
  refine ⟨?_, ?_, refines.listed.nodup, refines.listed.length⟩
  · intro blockNo outside free
    have unheld : abstract.held blockNo = false := by
      by_contra taken
      exact (agrees.held blockNo).mp (Bool.eq_true_of_not_eq_false taken)
        free
    rcases cacheAcquire_spec refines
        (roomy.home_of_not_inLog outside).1 unheld with
      ⟨target, acquired, targetRefines⟩
    rcases cacheAcquire_head acquired with ⟨block, rest, first, here⟩
    refine ⟨target, block, rest, acquired, first, here, ?_⟩
    have found : lookup target.head blockNo = some block := by
      rw [first, lookup_cons, if_pos here]
    have seen := targetRefines.status blockNo
    rw [status_some found] at seen
    have data : block.data = abstract.current blockNo :=
      congrArg Status.data seen
    rw [data]
    exact agrees.synced blockNo outside (by simp [free])
  · intro free
    have log : system.cache.log = abstract.log :=
      congrArg Abstract.log refines.seen
    have unheld : ∀ blockNo, abstract.held blockNo = false := by
      intro blockNo
      by_contra taken
      exact (agrees.held blockNo).mp (Bool.eq_true_of_not_eq_false taken)
        (free blockNo)
    cases ended : cacheEndOpSection abstract.log with
    | error panic =>
        simp [cacheEndOpSection, agrees.idle] at ended
        split_ifs at ended
    | ok result =>
        rcases result with ⟨next, newLog⟩
        cases next with
        | leave =>
            simp only [cacheEndOp, log, ended]
            exact ⟨_, rfl⟩
        | commit =>
            have header := (cacheEndOpSection_header ended).1
            rcases commit_spec (refines.withLog newLog)
                (agrees.committable header)
                (fun blockNo _ => unheld blockNo) with
              ⟨target, _, committed, _⟩
            simp only [cacheEndOp, log, ended]
            exact ⟨target, committed⟩

/--
From any recoverable disk on, a thread which follows the rules uses the block
cache as a plain store of its last synced contents.
-/
theorem single_thread_refines_store
    [DecidableEq Ctx]
    (roomy : Roomy sblock)
    {contents disk : Disk}
    (represents : roomy.layout.Represents contents disk)
    {start : Cache}
    (booted : initBcache sblock disk = .ok start)
    (contexts : Ctx → OpContext)
    {calls : List (Call Ctx)}
    {system : System Ctx}
    (run :
      Run (Takes (step sblock)) (SingleThread sblock)
        (System.init start contexts) calls system) :
    ActsAsStore sblock system := by
  rcases coherent_init represents booted contexts with
    ⟨initial, coherent, _⟩
  rcases coherent_run (fun _ _ => And.left) ⟨initial, coherent⟩ run with
    ⟨abstract, reached⟩
  exact Coherent.actsAsStore reached

/-! ## A run with one synced block -/

/-- The rules of a single thread, computed; `end_op` is left out. -/
def followsRules (sblock : SuperBlock) (system : System Unit) :
    Call Unit → Bool
  | .acquire blockNo =>
      decide (¬ sblock.InLog blockNo) &&
        decide (system.hold blockNo = .free)
  | .modify blockNo _ => decide (system.hold blockNo ≠ .free)
  | .sync _ blockNo => decide (system.hold blockNo ≠ .free)
  | .syncNull blockNo => decide (system.hold blockNo ≠ .free)
  | .release blockNo => decide (system.hold blockNo = .held)
  | .beginOp _ => true
  | .endOp _ => false

theorem followsRules_sound
    (system : System Unit)
    (call : Call Unit)
    (follows : followsRules sblock system call = true) :
    SingleThread sblock system call := by
  cases call with
  | acquire blockNo =>
      simpa [followsRules, SingleThread, Usage] using follows
  | modify blockNo data =>
      simpa [followsRules, SingleThread, Usage] using follows
  | sync ctx blockNo =>
      simpa [followsRules, SingleThread, Usage] using follows
  | syncNull blockNo =>
      simpa [followsRules, SingleThread, Usage] using follows
  | release blockNo =>
      simpa [followsRules, SingleThread, Usage] using follows
  | beginOp ctx => exact ⟨trivial, trivial⟩
  | endOp ctx => simp [followsRules] at follows

/-- When every cached block is released, no block is held. -/
theorem Coherent.free_of_released
    {roomy : Roomy sblock}
    {system : System Ctx}
    {abstract : Abstract}
    (coherent : Coherent roomy system abstract)
    (released :
      (system.cache.head.all fun block => !block.acquired) = true)
    (blockNo : BlockNo) :
    system.hold blockNo = .free := by
  by_contra taken
  rcases coherent.refines.cached_of_held
      (coherent.agrees.held_of_hold taken) with
    ⟨block, found, acquired, _⟩
  have idle := List.all_eq_true.mp released block (lookup_some found).1
  simp [acquired] at idle

/-- Block 300 is written inside an operation. -/
def oneWrite : List (Call Unit) :=
  [.beginOp (), .acquire 300, .modify 300 fun _ => 1, .sync () 300,
    .release 300]

theorem single_thread_refines_store_one_write :
    ∃ start system,
      initBcache roomySuperBlock zeroDisk = .ok start ∧
        Run (Takes (step roomySuperBlock)) (SingleThread roomySuperBlock)
          (System.init start fun _ => { rm := 0 })
          (oneWrite ++ [.endOp ()]) system ∧
        ActsAsStore roomySuperBlock system := by
  have represents := zeroDisk_installed.represents
  rcases initBcache_spec represents with ⟨start, _, booted, _⟩
  have computed :
      (match initBcache roomySuperBlock zeroDisk with
        | .ok start =>
            match
              executeChecked (step roomySuperBlock)
                (followsRules roomySuperBlock)
                (System.init start fun _ => { rm := 0 }) oneWrite with
            | some system =>
                system.cache.head.all fun block => !block.acquired
            | none => false
        | .error _ => false) = true := by
    decide +kernel
  rw [booted] at computed
  simp only at computed
  split at computed
  · rename_i middle executed
    have front := Run.of_executeChecked followsRules_sound executed
    rcases coherent_init represents booted fun _ : Unit => { rm := 0 } with
      ⟨initial, initialCoherent, _⟩
    rcases coherent_run (fun _ _ => And.left) ⟨initial, initialCoherent⟩
        front with
      ⟨abstract, coherent⟩
    have free := Coherent.free_of_released coherent computed
    rcases (Coherent.actsAsStore coherent).endOp free with ⟨target, ended⟩
    have last :
        step roomySuperBlock middle (.endOp ()) =
          .ok { middle with cache := target } := by
      simp only [step, ended, bind, Except.bind]
    have permitted :
        SingleThread roomySuperBlock middle (.endOp ()) :=
      ⟨trivial, free⟩
    have whole := Run.snoc front permitted last
    exact ⟨start, _, booted, whole,
      single_thread_refines_store roomySuperBlock_roomy represents booted _
        whole⟩
  · simp at computed

end FudanOS.Fs.BlockStore
