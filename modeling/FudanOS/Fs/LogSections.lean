import FudanOS.Fs.Defines

/-!
# The sections of the log under `log.lock`

`cache_begin_op`, `cache_sync` and `cache_end_op` of `fs/cache.c` touch the
in-memory log header and the fields of `log` only while they hold `log.lock`.
This module embeds each such section as a function on the protected state.
The interleaved log and the sequential block cache are both assembled from
these functions.

`log.sem` only decides when a sleeping `cache_begin_op` tests its condition
again, never the outcome of the test, so it is not part of the state.
-/

namespace FudanOS.Fs.LogSections

open FudanOS.Fs.Defines

/-- The state protected by `log.lock`. -/
structure Log where
  header : LogHeader
  iscommit : Bool
  outstanding : Nat

/-- The two reachable `PANIC()` calls of the log. -/
inductive Panic where
  | cacheSync
  | cacheEndOp
  deriving DecidableEq

/-- The loop condition of `cache_begin_op`. -/
def mustWait (log : Log) : Bool :=
  log.iscommit ||
    decide
      (logMaxSize <
        (log.header.numBlocks +
          (log.outstanding + 1) * opMaxNumBlocks) % usizeModulus)

/-- `log.outstanding++` -/
def admitOp (log : Log) : Log :=
  { log with outstanding := (log.outstanding + 1) % usizeModulus }

/--
The section of `cache_sync(ctx, block)`: a recorded block is absorbed, a new
one is appended to the header and charged to `ctx`.
-/
def cacheSyncSection
    (log : Log)
    (ctx : OpContext)
    (blockNo : BlockNo) :
    Except Panic (Log × OpContext) :=
  if blockNo ∈ log.header.entries then
    .ok (log, ctx)
  else if opMaxNumBlocks ≤ ctx.rm ∨ logMaxSize ≤ log.header.numBlocks then
    .error .cacheSync
  else
    .ok ({ log with header := log.header.push blockNo },
      { ctx with rm := ctx.rm + 1 })

/-- What the caller of `cache_end_op` does after its first section. -/
inductive EndOp where
  | leave
  | commit
  deriving DecidableEq

/-- The first section of `cache_end_op`. -/
def cacheEndOpSection (log : Log) : Except Panic (EndOp × Log) :=
  if log.iscommit then
    .error .cacheEndOp
  else
    let outstanding :=
      (log.outstanding + (usizeModulus - 1)) % usizeModulus
    if 0 < outstanding then
      .ok (.leave, { log with outstanding := outstanding })
    else
      .ok (.commit,
        { log with outstanding := outstanding, iscommit := true })

/-- `header.num_blocks = 0`, at the end of the installing section. -/
def clearHeader (log : Log) : Log :=
  { log with header := log.header.clear }

/-- `log.iscommit = 0`, in the last section of `cache_end_op`. -/
def finishCommit (log : Log) : Log :=
  { log with iscommit := false }

/-! ## What each section can do -/

/-- An admitted operation fits in the log with all outstanding ones. -/
theorem admission_bound
    {log : Log}
    (admitted : mustWait log = false)
    (headerFits : log.header.numBlocks ≤ logMaxSize)
    (fewOutstanding : log.outstanding < 2 ^ 32) :
    log.iscommit = false ∧
      log.header.numBlocks + (log.outstanding + 1) * opMaxNumBlocks ≤
        logMaxSize := by
  have small :
      log.header.numBlocks + (log.outstanding + 1) * opMaxNumBlocks <
        usizeModulus := by
    simp only [logMaxSize, blockSize] at headerFits
    simp only [opMaxNumBlocks, usizeModulus]
    omega
  simp only [mustWait, Bool.or_eq_false_iff, decide_eq_false_iff_not,
    Nat.mod_eq_of_lt small] at admitted
  exact ⟨admitted.1, Nat.le_of_not_lt admitted.2⟩

/-- The successful outcomes of the section of `cache_sync`. -/
theorem cacheSyncSection_cases
    {log target : Log}
    {ctx charged : OpContext}
    {blockNo : BlockNo}
    (synced : cacheSyncSection log ctx blockNo = .ok (target, charged)) :
    (blockNo ∈ log.header.entries ∧ target = log ∧ charged = ctx) ∨
      (blockNo ∉ log.header.entries ∧
        ctx.rm < opMaxNumBlocks ∧
        log.header.numBlocks < logMaxSize ∧
        target = { log with header := log.header.push blockNo } ∧
        charged = { ctx with rm := ctx.rm + 1 }) := by
  unfold cacheSyncSection at synced
  split_ifs at synced with absorbed full
  · cases synced
    exact Or.inl ⟨absorbed, rfl, rfl⟩
  · cases synced
    rw [not_or, Nat.not_le, Nat.not_le] at full
    exact Or.inr ⟨absorbed, full.1, full.2, rfl, rfl⟩

/-- The section of `cache_sync` panics only when a bound is reached. -/
theorem cacheSyncSection_panic
    {log : Log}
    {ctx : OpContext}
    {blockNo : BlockNo}
    {panic : Panic}
    (panicked : cacheSyncSection log ctx blockNo = .error panic) :
    blockNo ∉ log.header.entries ∧
      (opMaxNumBlocks ≤ ctx.rm ∨ logMaxSize ≤ log.header.numBlocks) := by
  unfold cacheSyncSection at panicked
  split_ifs at panicked with absorbed full
  exact ⟨absorbed, full⟩

/-- The successful outcomes of the first section of `cache_end_op`. -/
theorem cacheEndOpSection_cases
    {log target : Log}
    {next : EndOp}
    (positive : 0 < log.outstanding)
    (bounded : log.outstanding < usizeModulus)
    (ended : cacheEndOpSection log = .ok (next, target)) :
    log.iscommit = false ∧
      ((1 < log.outstanding ∧ next = .leave ∧
          target = { log with outstanding := log.outstanding - 1 }) ∨
        (log.outstanding = 1 ∧ next = .commit ∧
          target = { log with outstanding := 0, iscommit := true })) := by
  have decremented :
      (log.outstanding + (usizeModulus - 1)) % usizeModulus =
        log.outstanding - 1 := by
    simp only [usizeModulus] at bounded ⊢
    omega
  unfold cacheEndOpSection at ended
  simp only [decremented] at ended
  split_ifs at ended with committing others
  · cases ended
    exact ⟨Bool.eq_false_of_not_eq_true committing,
      Or.inl ⟨by omega, rfl, rfl⟩⟩
  · cases ended
    have last : log.outstanding = 1 := by omega
    exact ⟨Bool.eq_false_of_not_eq_true committing,
      Or.inr ⟨last, rfl, by simp [last]⟩⟩

/-- The first section of `cache_end_op` keeps the header. -/
theorem cacheEndOpSection_header
    {log target : Log}
    {next : EndOp}
    (ended : cacheEndOpSection log = .ok (next, target)) :
    target.header = log.header ∧
      (next = .leave → target.iscommit = log.iscommit) := by
  unfold cacheEndOpSection at ended
  simp only at ended
  generalize (log.outstanding + (usizeModulus - 1)) % usizeModulus =
    outstanding at ended
  split_ifs at ended
  · simp only [Except.ok.injEq, Prod.mk.injEq] at ended
    rw [← ended.2]
    exact ⟨rfl, fun _ => rfl⟩
  · simp only [Except.ok.injEq, Prod.mk.injEq] at ended
    rw [← ended.1, ← ended.2]
    exact ⟨rfl, by simp⟩

end FudanOS.Fs.LogSections
