import FudanOS.Library.Runs
import FudanOS.Fs.LogSections
import Mathlib.Algebra.BigOperators.Ring.Finset
import Mathlib.Algebra.Order.BigOperators.Group.Finset

/-!
# Log reservation under every interleaving

Any number of operation contexts run `cache_begin_op`, `cache_sync` and
`cache_end_op`.  A step is one section under `log.lock`, or one of the device
writes which a committing `cache_end_op` issues while the lock is free.

The admission test of `cache_begin_op` counts outstanding operations and not
their remaining budgets.  The invariant `Reservation` relates the two: the
blocks already recorded and the unused budget of every running operation fit
in the header together.
-/

namespace FudanOS.Fs.LogReservation

open FudanOS.Library.Runs
open FudanOS.Fs.Defines
open FudanOS.Fs.LogSections

/-! ## The interleaved log -/

/-- Where a context stands between two sections. -/
inductive Phase where
  | idle
  | waiting
  | running (ctx : OpContext)
  | copying (index : Nat)
  | writingHeader
  | installing
  | clearingHeader
  | finishing
  deriving DecidableEq

namespace Phase

/-- One for an operation between its `begin_op` and its `end_op`. -/
def running? : Phase → Nat
  | .running _ => 1
  | .idle | .waiting => 0
  | .copying _ | .writingHeader | .installing => 0
  | .clearingHeader | .finishing => 0

/-- The part of its budget which a running operation has not used. -/
def unused : Phase → Nat
  | .running ctx => opMaxNumBlocks - ctx.rm
  | .idle | .waiting => 0
  | .copying _ | .writingHeader | .installing => 0
  | .clearingHeader | .finishing => 0

/-- One for an operation inside the commit of its `end_op`. -/
def committing? : Phase → Nat
  | .copying _ | .writingHeader | .installing => 1
  | .clearingHeader | .finishing => 1
  | .idle | .waiting | .running _ => 0

@[simp]
theorem running?_running (ctx : OpContext) :
    (Phase.running ctx).running? = 1 :=
  rfl

@[simp]
theorem unused_running (ctx : OpContext) :
    (Phase.running ctx).unused = opMaxNumBlocks - ctx.rm :=
  rfl

@[simp]
theorem committing?_running (ctx : OpContext) :
    (Phase.running ctx).committing? = 0 :=
  rfl

/-- A phase uses budget only while it runs. -/
theorem unused_le (phase : Phase) :
    phase.unused ≤ phase.running? * opMaxNumBlocks := by
  cases phase <;> simp [unused, running?]

/-- A running operation is not inside a commit. -/
theorem running?_add_committing?_le (phase : Phase) :
    phase.running? + phase.committing? ≤ 1 := by
  cases phase <;> simp [committing?, running?]

end Phase

/-- The log, the phase of every context and the log copies written so far. -/
structure System (Ctx : Type) where
  log : Log
  phase : Ctx → Phase
  copies : List BlockNo

/-- One step of one context. -/
inductive Label (Ctx : Type) where
  | beginOp (context : Ctx)
  | sync (context : Ctx) (blockNo : BlockNo)
  | endOp (context : Ctx)
  | commit (context : Ctx)

/-- Why a label is not a step. -/
inductive Stop where
  | disabled
  | panic (site : Panic)
  deriving DecidableEq

variable {Ctx : Type}

namespace System

variable [DecidableEq Ctx]

/-- Move one context, with the log in its new state. -/
def move
    (system : System Ctx)
    (context : Ctx)
    (log : Log)
    (phase : Phase) : System Ctx :=
  { system with
    log := log
    phase := Function.update system.phase context phase }

@[simp]
theorem log_move
    (system : System Ctx) (context : Ctx) (log : Log) (phase : Phase) :
    (system.move context log phase).log = log :=
  rfl

@[simp]
theorem phase_move
    (system : System Ctx) (context : Ctx) (log : Log) (phase : Phase) :
    (system.move context log phase).phase =
      Function.update system.phase context phase :=
  rfl

end System

/-- The head of the copying loop: the next copy, or the header. -/
def copyFrom (log : Log) (index : Nat) : Phase :=
  if index < log.header.numBlocks then .copying index else .writingHeader

section Steps

variable [DecidableEq Ctx]

/-- `cache_begin_op`, entered or woken up: wait again or be admitted. -/
def cacheBeginOp (system : System Ctx) (context : Ctx) : System Ctx :=
  if mustWait system.log then
    system.move context system.log .waiting
  else
    system.move context (admitOp system.log) (.running { rm := 0 })

/-- The next section or device write of a committing `cache_end_op`. -/
def commitStep
    (sblock : SuperBlock)
    (system : System Ctx)
    (context : Ctx) : Except Stop (System Ctx) :=
  match system.phase context with
  | .copying index =>
      .ok
        { system.move context system.log
            (copyFrom system.log (index + 1)) with
          copies := system.copies ++ [sblock.logBlock index] }
  | .writingHeader =>
      .ok (system.move context system.log .installing)
  | .installing =>
      .ok (system.move context (clearHeader system.log) .clearingHeader)
  | .clearingHeader =>
      .ok (system.move context system.log .finishing)
  | .finishing =>
      .ok (system.move context (finishCommit system.log) .idle)
  | _ => .error .disabled

/-- One step of the interleaved log on the layout `sblock`. -/
def step
    (sblock : SuperBlock)
    (system : System Ctx) : Label Ctx → Except Stop (System Ctx)
  | .beginOp context =>
      match system.phase context with
      | .idle => .ok (cacheBeginOp system context)
      | .waiting => .ok (cacheBeginOp system context)
      | _ => .error .disabled
  | .sync context blockNo =>
      match system.phase context with
      | .running ctx =>
          match cacheSyncSection system.log ctx blockNo with
          | .ok (log, charged) =>
              .ok (system.move context log (.running charged))
          | .error site => .error (.panic site)
      | _ => .error .disabled
  | .endOp context =>
      match system.phase context with
      | .running _ =>
          match cacheEndOpSection system.log with
          | .ok (.leave, log) => .ok (system.move context log .idle)
          | .ok (.commit, log) =>
              .ok (system.move context log (copyFrom log 0))
          | .error site => .error (.panic site)
      | _ => .error .disabled
  | .commit context => commitStep sblock system context

/--
What one step does: the moving context, the log it leaves behind, the phase
it enters and the log copies it writes.
-/
inductive Moves
    (sblock : SuperBlock)
    (system : System Ctx)
    (context : Ctx) : Log → Phase → List BlockNo → Prop where
  | wait
      (outside :
        system.phase context = .idle ∨ system.phase context = .waiting) :
      Moves sblock system context system.log .waiting []
  | admitted
      (outside :
        system.phase context = .idle ∨ system.phase context = .waiting)
      (room : mustWait system.log = false) :
      Moves sblock system context
        (admitOp system.log) (.running { rm := 0 }) []
  | sync
      (running : system.phase context = .running ctx)
      (synced :
        cacheSyncSection system.log ctx blockNo = .ok (log, charged)) :
      Moves sblock system context log (.running charged) []
  | leave
      (running : system.phase context = .running ctx)
      (ended : cacheEndOpSection system.log = .ok (.leave, log)) :
      Moves sblock system context log .idle []
  | commit
      (running : system.phase context = .running ctx)
      (ended : cacheEndOpSection system.log = .ok (.commit, log)) :
      Moves sblock system context log (copyFrom log 0) []
  | copy
      (copying : system.phase context = .copying index) :
      Moves sblock system context system.log
        (copyFrom system.log (index + 1)) [sblock.logBlock index]
  | writeHeader
      (writing : system.phase context = .writingHeader) :
      Moves sblock system context system.log .installing []
  | install
      (installing : system.phase context = .installing) :
      Moves sblock system context
        (clearHeader system.log) .clearingHeader []
  | rewriteHeader
      (clearing : system.phase context = .clearingHeader) :
      Moves sblock system context system.log .finishing []
  | finish
      (finishing : system.phase context = .finishing) :
      Moves sblock system context (finishCommit system.log) .idle []

theorem cacheBeginOp_moves
    (sblock : SuperBlock)
    (system : System Ctx)
    (context : Ctx)
    (outside :
      system.phase context = .idle ∨ system.phase context = .waiting) :
    ∃ log phase,
      Moves sblock system context log phase [] ∧
        cacheBeginOp system context = system.move context log phase := by
  unfold cacheBeginOp
  split_ifs with waits
  · exact ⟨_, _, Moves.wait outside, rfl⟩
  · exact ⟨_, _,
      Moves.admitted outside (Bool.eq_false_of_not_eq_true waits), rfl⟩

/-- Every step is one of the moves. -/
theorem step_moves
    {sblock : SuperBlock}
    {system target : System Ctx}
    {label : Label Ctx}
    (taken : step sblock system label = .ok target) :
    ∃ context log phase copies,
      Moves sblock system context log phase copies ∧
        target =
          { system.move context log phase with
            copies := system.copies ++ copies } := by
  have unchanged :
      ∀ context log phase,
        system.move context log phase =
          { system.move context log phase with
            copies := system.copies ++ [] } := by
    simp [System.move]
  cases label with
  | beginOp context =>
      have entered :
          (system.phase context = .idle ∨
              system.phase context = .waiting) ∧
            target = cacheBeginOp system context := by
        simp only [step] at taken
        split at taken <;> simp_all
      rcases cacheBeginOp_moves sblock system context entered.1 with
        ⟨log, phase, moves, moved⟩
      exact ⟨context, log, phase, [], moves,
        (entered.2.trans moved).trans (unchanged ..)⟩
  | sync context blockNo =>
      simp only [step] at taken
      split at taken
      · rename_i ctx running
        split at taken
        · rename_i log charged synced
          cases taken
          exact ⟨_, _, _, _, Moves.sync running synced, unchanged ..⟩
        · simp at taken
      · simp at taken
  | endOp context =>
      simp only [step] at taken
      split at taken
      · rename_i ctx running
        split at taken
        · rename_i log ended
          cases taken
          exact ⟨_, _, _, _, Moves.leave running ended, unchanged ..⟩
        · rename_i log ended
          cases taken
          exact ⟨_, _, _, _, Moves.commit running ended, unchanged ..⟩
        · simp at taken
      · simp at taken
  | commit context =>
      simp only [step, commitStep] at taken
      split at taken
      · rename_i copying
        cases taken
        exact ⟨_, _, _, _, Moves.copy copying, rfl⟩
      · rename_i writing
        cases taken
        exact ⟨_, _, _, _, Moves.writeHeader writing, unchanged ..⟩
      · rename_i installing
        cases taken
        exact ⟨_, _, _, _, Moves.install installing, unchanged ..⟩
      · rename_i clearing
        cases taken
        exact ⟨_, _, _, _, Moves.rewriteHeader clearing, unchanged ..⟩
      · rename_i finishing
        cases taken
        exact ⟨_, _, _, _, Moves.finish finishing, unchanged ..⟩
      · simp at taken

/-- After `init_bcache`: an empty header, nothing outstanding. -/
def initial (blockNo : Nat → BlockNo) : System Ctx where
  log :=
    { header := { numBlocks := 0, blockNo := blockNo }
      iscommit := false
      outstanding := 0 }
  phase := fun _ => .idle
  copies := []

/-- Executions of the interleaved log; the phases enforce the client order. -/
abbrev Executes
    (sblock : SuperBlock)
    (blockNo : Nat → BlockNo)
    (labels : List (Label Ctx))
    (system : System Ctx) : Prop :=
  Run (Takes (step sblock)) (fun _ _ => True)
    (initial blockNo) labels system

end Steps

/-! ## The reservation invariant -/

variable [Fintype Ctx]

/-- The number of running operations. -/
def System.runningCount (system : System Ctx) : Nat :=
  ∑ context, (system.phase context).running?

/-- The budget which running operations have not used. -/
def System.unusedBudget (system : System Ctx) : Nat :=
  ∑ context, (system.phase context).unused

/-- The number of operations inside a commit. -/
def System.committers (system : System Ctx) : Nat :=
  ∑ context, (system.phase context).committing?

structure Reservation (system : System Ctx) : Prop where
  outstanding_eq : system.log.outstanding = system.runningCount
  budget :
    system.log.header.numBlocks + system.unusedBudget ≤ logMaxSize
  distinct : system.log.header.entries.Nodup
  few : system.log.outstanding ≤ 6
  charged :
    ∀ context ctx,
      system.phase context = .running ctx → ctx.rm ≤ opMaxNumBlocks
  committers_eq :
    system.committers = if system.log.iscommit then 1 else 0
  quiet : system.log.iscommit = true → system.log.outstanding = 0

theorem reservation_initial (blockNo : Nat → BlockNo) :
    Reservation (initial blockNo : System Ctx) where
  outstanding_eq := by
    simp [initial, System.runningCount, Phase.running?]
  budget := by
    simp [initial, System.unusedBudget, Phase.unused]
  distinct := by simp [initial, LogHeader.entries]
  few := by simp [initial]
  charged := by simp [initial]
  committers_eq := by
    simp [initial, System.committers, Phase.committing?]
  quiet := by simp [initial]

namespace System

theorem running?_le_runningCount
    (system : System Ctx) (context : Ctx) :
    (system.phase context).running? ≤ system.runningCount :=
  Finset.single_le_sum
    (f := fun other => (system.phase other).running?)
    (fun _ _ => Nat.zero_le _) (Finset.mem_univ context)

theorem committing?_le_committers
    (system : System Ctx) (context : Ctx) :
    (system.phase context).committing? ≤ system.committers :=
  Finset.single_le_sum
    (f := fun other => (system.phase other).committing?)
    (fun _ _ => Nat.zero_le _) (Finset.mem_univ context)

/-- Each running operation has at most a whole budget left. -/
theorem unusedBudget_le (system : System Ctx) :
    system.unusedBudget ≤ system.runningCount * opMaxNumBlocks := by
  rw [runningCount, unusedBudget, Finset.sum_mul]
  exact Finset.sum_le_sum fun other _ => (system.phase other).unused_le

variable [DecidableEq Ctx]

theorem runningCount_move
    (system : System Ctx) (context : Ctx) (log : Log) (phase : Phase) :
    (system.move context log phase).runningCount +
        (system.phase context).running? =
      system.runningCount + phase.running? :=
  sum_update_add Phase.running? system.phase context phase

theorem unusedBudget_move
    (system : System Ctx) (context : Ctx) (log : Log) (phase : Phase) :
    (system.move context log phase).unusedBudget +
        (system.phase context).unused =
      system.unusedBudget + phase.unused :=
  sum_update_add Phase.unused system.phase context phase

theorem committers_move
    (system : System Ctx) (context : Ctx) (log : Log) (phase : Phase) :
    (system.move context log phase).committers +
        (system.phase context).committing? =
      system.committers + phase.committing? :=
  sum_update_add Phase.committing? system.phase context phase

end System

/-- An operation which runs is counted by `log.outstanding`. -/
theorem Reservation.outstanding_pos
    {system : System Ctx}
    (reservation : Reservation system)
    {context : Ctx}
    {ctx : OpContext}
    (running : system.phase context = .running ctx) :
    0 < system.log.outstanding := by
  have counted := system.running?_le_runningCount context
  rw [running, Phase.running?_running] at counted
  rw [reservation.outstanding_eq]
  exact counted

/-- A context inside a commit holds the commit flag. -/
theorem Reservation.iscommit_of_committing
    {system : System Ctx}
    (reservation : Reservation system)
    {context : Ctx}
    (committing : (system.phase context).committing? = 1) :
    system.log.iscommit = true := by
  by_contra idle
  have counted := system.committing?_le_committers context
  rw [committing, reservation.committers_eq] at counted
  simp [idle] at counted

variable [DecidableEq Ctx]

/--
Moving one context keeps the invariant when the log changes by the same
amounts as the weights of the phase.
-/
theorem reservation_move
    {system : System Ctx}
    (reservation : Reservation system)
    (context : Ctx)
    (log : Log)
    (phase : Phase)
    (outstanding :
      log.outstanding + (system.phase context).running? =
        system.log.outstanding + phase.running?)
    (budget :
      log.header.numBlocks + system.unusedBudget + phase.unused ≤
        logMaxSize + (system.phase context).unused)
    (distinct : log.header.entries.Nodup)
    (few : log.outstanding ≤ 6)
    (charged : ∀ ctx, phase = .running ctx → ctx.rm ≤ opMaxNumBlocks)
    (committers :
      (if log.iscommit then 1 else 0) + (system.phase context).committing? =
        (if system.log.iscommit then 1 else 0) + phase.committing?)
    (quiet : log.iscommit = true → log.outstanding = 0) :
    Reservation (system.move context log phase) where
  outstanding_eq := by
    have count := system.runningCount_move context log phase
    have before := reservation.outstanding_eq
    rw [System.log_move]
    omega
  budget := by
    have total := system.unusedBudget_move context log phase
    rw [System.log_move]
    omega
  distinct := distinct
  few := few
  charged := by
    intro other ctx running
    rw [System.phase_move] at running
    by_cases same : other = context
    · subst other
      rw [Function.update_self] at running
      exact charged ctx running
    · rw [Function.update_of_ne same] at running
      exact reservation.charged other ctx running
  committers_eq := by
    have count := system.committers_move context log phase
    have before := reservation.committers_eq
    rw [System.log_move]
    omega
  quiet := quiet

/-- A step of a context which neither runs nor starts or ends a commit. -/
theorem reservation_move_outside
    {system : System Ctx}
    (reservation : Reservation system)
    (context : Ctx)
    (phase : Phase)
    (notRunning : (system.phase context).running? = 0)
    (staysOut : phase.running? = 0)
    (sameCommit :
      (system.phase context).committing? = phase.committing?) :
    Reservation (system.move context system.log phase) := by
  have nothingUnused : phase.unused = 0 := by
    have bound := phase.unused_le
    simpa [staysOut] using bound
  have budget := reservation.budget
  apply reservation_move reservation
  · omega
  · omega
  · exact reservation.distinct
  · exact reservation.few
  · intro ctx running
    subst running
    simp at staysOut
  · omega
  · exact reservation.quiet

theorem reservation_admitted
    {system : System Ctx}
    (reservation : Reservation system)
    (context : Ctx)
    (notRunning : (system.phase context).running? = 0)
    (notCommitting : (system.phase context).committing? = 0)
    (room : mustWait system.log = false) :
    Reservation
      (system.move context (admitOp system.log) (.running { rm := 0 })) := by
  have few := reservation.few
  have budget := reservation.budget
  have unused := system.unusedBudget_le
  have admission := admission_bound room (by omega) (by omega)
  have admitted :
      (admitOp system.log).outstanding = system.log.outstanding + 1 := by
    simp only [admitOp, usizeModulus]
    omega
  rw [← reservation.outstanding_eq] at unused
  simp only [logMaxSize, blockSize, opMaxNumBlocks] at admission unused
  apply reservation_move reservation
  · simp only [Phase.running?_running]
    omega
  · simp only [Phase.unused_running, opMaxNumBlocks, logMaxSize, blockSize]
    show system.log.header.numBlocks + _ + _ ≤ _
    omega
  · exact reservation.distinct
  · omega
  · intro ctx running
    cases running
    simp
  · simp only [Phase.committing?_running]
    show (if system.log.iscommit then 1 else 0) + _ = _
    omega
  · intro committing
    have idle : system.log.iscommit = true := committing
    simp [admission.1] at idle

theorem reservation_sync
    {system : System Ctx}
    (reservation : Reservation system)
    {context : Ctx}
    {ctx charged : OpContext}
    {log : Log}
    {blockNo : BlockNo}
    (running : system.phase context = .running ctx)
    (synced :
      cacheSyncSection system.log ctx blockNo = .ok (log, charged)) :
    Reservation (system.move context log (.running charged)) := by
  have budget := reservation.budget
  rcases cacheSyncSection_cases synced with
    ⟨_, rfl, rfl⟩ | ⟨fresh, hasBudget, _, rfl, rfl⟩
  · apply reservation_move reservation
    · rw [running]
    · rw [running]
      omega
    · exact reservation.distinct
    · exact reservation.few
    · intro other same
      cases same
      exact reservation.charged context charged running
    · rw [running]
    · exact reservation.quiet
  · apply reservation_move reservation
    · simp [running]
    · simp only [running, Phase.unused_running, LogHeader.push]
      omega
    · rw [LogHeader.entries_push]
      exact reservation.distinct.append (by simp)
        (by simpa using fresh)
    · exact reservation.few
    · intro other same
      cases same
      exact hasBudget
    · simp [running]
    · exact reservation.quiet

/-- The phase at the head of the copying loop is one of a commit. -/
theorem copyFrom_weights (log : Log) (index : Nat) :
    (copyFrom log index).running? = 0 ∧
      (copyFrom log index).unused = 0 ∧
      (copyFrom log index).committing? = 1 := by
  unfold copyFrom
  split_ifs <;> simp [Phase.running?, Phase.unused, Phase.committing?]

theorem reservation_endOp
    {system : System Ctx}
    (reservation : Reservation system)
    {context : Ctx}
    {ctx : OpContext}
    {next : EndOp}
    {log : Log}
    (running : system.phase context = .running ctx)
    (ended : cacheEndOpSection system.log = .ok (next, log)) :
    (next = .leave →
        Reservation (system.move context log .idle)) ∧
      (next = .commit →
        Reservation (system.move context log (copyFrom log 0))) := by
  have budget := reservation.budget
  have few := reservation.few
  have cases :=
    cacheEndOpSection_cases (reservation.outstanding_pos running)
      (by simp only [usizeModulus]; omega) ended
  rcases cases with
    ⟨idle, ⟨others, rfl, rfl⟩ | ⟨last, rfl, rfl⟩⟩
  · refine ⟨fun _ => ?_, by simp⟩
    apply reservation_move reservation
    · simp only [running, Phase.running?]
      omega
    · simp only [running, Phase.unused]
      omega
    · exact reservation.distinct
    · show system.log.outstanding - 1 ≤ 6
      omega
    · simp
    · simp [running, Phase.committing?]
    · intro committing
      have flag : system.log.iscommit = true := committing
      simp [idle] at flag
  · refine ⟨by simp, fun _ => ?_⟩
    have weights := copyFrom_weights
      { system.log with outstanding := 0, iscommit := true } 0
    apply reservation_move reservation
    · simp only [running, weights.1, Phase.running?_running]
      omega
    · simp only [running, weights.2.1]
      omega
    · exact reservation.distinct
    · simp
    · intro other same
      simp [same] at weights
    · simp [running, weights.2.2, idle]
    · simp

/-- Every move keeps the invariant. -/
theorem reservation_moves
    {sblock : SuperBlock}
    {system : System Ctx}
    {context : Ctx}
    {log : Log}
    {phase : Phase}
    {copies : List BlockNo}
    (reservation : Reservation system)
    (moves : Moves sblock system context log phase copies) :
    Reservation (system.move context log phase) := by
  have budget := reservation.budget
  cases moves with
  | wait outside =>
      rcases outside with before | before <;>
        exact reservation_move_outside reservation context .waiting
          (by simp [before, Phase.running?]) rfl
          (by simp [before, Phase.committing?])
  | admitted outside room =>
      rcases outside with before | before <;>
        exact reservation_admitted reservation context
          (by simp [before, Phase.running?])
          (by simp [before, Phase.committing?]) room
  | sync running synced =>
      exact reservation_sync reservation running synced
  | leave running ended =>
      exact (reservation_endOp reservation running ended).1 rfl
  | commit running ended =>
      exact (reservation_endOp reservation running ended).2 rfl
  | @copy index copying =>
      have weights := copyFrom_weights system.log (index + 1)
      exact reservation_move_outside reservation context _
        (by simp [copying, Phase.running?]) weights.1
        (by rw [copying, weights.2.2]; rfl)
  | writeHeader writing =>
      exact reservation_move_outside reservation context .installing
        (by simp [writing, Phase.running?]) rfl
        (by simp [writing, Phase.committing?])
  | install installing =>
      apply reservation_move reservation
      · simp [installing, Phase.running?, clearHeader]
      · simp only [installing, Phase.unused, clearHeader,
          LogHeader.clear]
        omega
      · simp [clearHeader]
      · exact reservation.few
      · simp
      · rw [installing]
        rfl
      · exact reservation.quiet
  | rewriteHeader clearing =>
      exact reservation_move_outside reservation context .finishing
        (by simp [clearing, Phase.running?]) rfl
        (by simp [clearing, Phase.committing?])
  | finish finishing =>
      have flag :=
        reservation.iscommit_of_committing
          (show (system.phase context).committing? = 1 by
            simp [finishing, Phase.committing?])
      apply reservation_move reservation
      · simp [finishing, Phase.running?, finishCommit]
      · simp only [finishing, Phase.unused, finishCommit]
        omega
      · exact reservation.distinct
      · exact reservation.few
      · simp
      · simp [finishing, Phase.committing?, finishCommit, flag]
      · simp [finishCommit]

/-- Every step keeps the invariant. -/
theorem reservation_step
    {sblock : SuperBlock}
    {system target : System Ctx}
    {label : Label Ctx}
    (reservation : Reservation system)
    (taken : step sblock system label = .ok target) :
    Reservation target := by
  rcases step_moves taken with ⟨context, log, phase, copies, moves, rfl⟩
  exact { reservation_moves reservation moves with }

/-- The invariant holds at the end of every execution. -/
theorem reservation_executes
    {sblock : SuperBlock}
    {blockNo : Nat → BlockNo}
    {labels : List (Label Ctx)}
    {system : System Ctx}
    (executes : Executes sblock blockNo labels system) :
    Reservation system :=
  executes.invariant (reservation_initial blockNo)
    fun _ _ _ reservation _ taken => reservation_step reservation taken

/-! ## No reservation is ever exceeded -/

/--
At every reachable state the counters of the log describe the running
operations, and the recorded blocks fit together with all unused budgets.
The panic of `cache_end_op` is unreachable and `cache_sync` panics only for
an operation which has itself added its whole budget.
-/
theorem log_reservation_sufficient
    {sblock : SuperBlock}
    {blockNo : Nat → BlockNo}
    {labels : List (Label Ctx)}
    {system : System Ctx}
    (executes : Executes sblock blockNo labels system) :
    system.log.outstanding = system.runningCount ∧
      (system.log.iscommit = true → system.log.outstanding = 0) ∧
      system.log.header.entries.Nodup ∧
      system.log.header.numBlocks + system.unusedBudget ≤ logMaxSize ∧
      (∀ context site,
        step sblock system (.endOp context) ≠ .error (.panic site)) ∧
      ∀ context synced site,
        step sblock system (.sync context synced) = .error (.panic site) →
          ∃ ctx,
            system.phase context = .running ctx ∧
              ctx.rm = opMaxNumBlocks := by
  have reservation := reservation_executes executes
  refine
    ⟨reservation.outstanding_eq, reservation.quiet, reservation.distinct,
      reservation.budget, ?_, ?_⟩
  · intro context site panicked
    simp only [step] at panicked
    split at panicked
    · rename_i ctx running
      have positive := reservation.outstanding_pos running
      have notCommitting : system.log.iscommit = false := by
        apply Bool.eq_false_of_not_eq_true
        intro committing
        have quiet := reservation.quiet committing
        omega
      have proceeds :
          ∃ result, cacheEndOpSection system.log = .ok result := by
        simp only [cacheEndOpSection, notCommitting, Bool.false_eq_true,
          if_false]
        split_ifs <;> exact ⟨_, rfl⟩
      rcases proceeds with ⟨⟨next, log⟩, ended⟩
      cases next <;> simp [ended] at panicked
    · simp at panicked
  · intro context synced site panicked
    simp only [step] at panicked
    split at panicked
    · rename_i ctx running
      split at panicked
      · simp at panicked
      · rename_i failed
        refine ⟨ctx, running, ?_⟩
        have within := reservation.charged context ctx running
        rcases (cacheSyncSection_panic failed).2 with spent | full
        · exact Nat.le_antisymm within spent
        · -- A full header leaves no unused budget to any running operation.
          have share : (system.phase context).unused ≤ system.unusedBudget :=
            Finset.single_le_sum
              (f := fun other => (system.phase other).unused)
              (fun _ _ => Nat.zero_le _) (Finset.mem_univ context)
          have budget := reservation.budget
          rw [running, Phase.unused_running] at share
          omega
    · simp at panicked

/-- Two operations, one of which has ended, inside one group. -/
theorem log_reservation_sufficient_two_operations :
    ∃ system : System (Fin 2),
      Executes
          { numBlocks := 1000, numDataBlocks := 908, numInodes := 200,
            numLogBlocks := 63, logStart := 2, inodeStart := 65,
            bitmapStart := 91 }
          (fun _ => 0)
          [.beginOp 0, .beginOp 1, .sync 0 100, .sync 1 100, .sync 1 101,
            .endOp 1]
          system ∧
        system.log.header.entries.Nodup := by
  rcases
      exists_of_reaches
        (show
          reaches
              (step
                { numBlocks := 1000, numDataBlocks := 908, numInodes := 200,
                  numLogBlocks := 63, logStart := 2, inodeStart := 65,
                  bitmapStart := 91 })
              (initial fun _ => 0 : System (Fin 2))
              [.beginOp 0, .beginOp 1, .sync 0 100, .sync 1 100,
                .sync 1 101, .endOp 1]
              (fun _ => true) = true by
          decide) with
    ⟨system, executed, _⟩
  have executes := Run.of_execute executed fun _ _ _ => trivial
  exact ⟨system, executes, (log_reservation_sufficient executes).2.2.1⟩

end FudanOS.Fs.LogReservation
