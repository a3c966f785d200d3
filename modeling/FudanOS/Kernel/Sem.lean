import Mathlib.Data.List.Nodup

/-!
# Semaphores

The functions of `common/sem.c`, each on what it does while it holds
`sem->lock`.  `_wait_sem` has two parts, before and after it sleeps.  The
`WaitData` of a sleeping thread is named by the thread, so `sleeplist` is a
list of threads: `_insert_into_list` puts a thread at its front, and
`sleeplist.prev` is its last one.  Overflow of an `int` has no meaning in C,
and the functions stop there.
-/

namespace FudanOS.Kernel.Sem

/-- Why a function does not return. -/
inductive Stop where
  /-- An `ASSERT` fails. -/
  | assertion
  /-- An `int` overflows. -/
  | overflow
  /-- A loop has not come to its end. -/
  | unfinished
  deriving DecidableEq

/-- The largest `int`. -/
def intMax : Int := 2147483647

/-- The smallest `int`. -/
def intMin : Int := -2147483648

/-- `++value` -/
def increment (value : Int) : Except Stop Int :=
  if value = intMax then .error .overflow else .ok (value + 1)

/-- `--value` -/
def decrement (value : Int) : Except Stop Int :=
  if value = intMin then .error .overflow else .ok (value - 1)

/-- `Semaphore`, without its lock. -/
structure Semaphore (Thread : Type) where
  val : Int
  sleeplist : List Thread

/-- `init_sem(sem, val)` -/
def initSem {Thread : Type} (val : Int) : Semaphore Thread where
  val := val
  sleeplist := []

section Functions

variable {Thread : Type}

/-- `_get_sem(sem)` -/
def getSem (sem : Semaphore Thread) : Bool × Semaphore Thread :=
  if 0 < sem.val then
    (true, { sem with val := sem.val - 1 })
  else
    (false, sem)

/-- `get_all_sem(sem)` -/
def getAllSem (sem : Semaphore Thread) : Int × Semaphore Thread :=
  if 0 < sem.val then
    (sem.val, { sem with val := 0 })
  else
    (0, sem)

/-- `_post_sem(sem)` and the thread of which it sets `up`. -/
def postSem (sem : Semaphore Thread) :
    Except Stop (Semaphore Thread × Option Thread) := do
  let val ← increment sem.val
  if val ≤ 0 then
    match sem.sleeplist.getLast? with
    | none => throw .assertion
    | some thread =>
        return (⟨val, sem.sleeplist.dropLast⟩, some thread)
  else
    return (⟨val, sem.sleeplist⟩, none)

/-- `_wait_sem` until it returns `true` or goes to sleep. -/
def waitSem (thread : Thread) (sem : Semaphore Thread) :
    Except Stop (Bool × Semaphore Thread) := do
  let val ← decrement sem.val
  if 0 ≤ val then
    return (true, ⟨val, sem.sleeplist⟩)
  else
    return (false, ⟨val, thread :: sem.sleeplist⟩)

/-- The rest of `_wait_sem`, given `wait->up`. -/
def resumeSem [DecidableEq Thread] (thread : Thread) (up : Bool)
    (sem : Semaphore Thread) : Except Stop (Semaphore Thread) :=
  if up then
    return sem
  else do
    let val ← increment sem.val
    if val ≤ 0 then
      return ⟨val, sem.sleeplist.erase thread⟩
    else
      throw .assertion

end Functions

/-! ## What the functions do -/

/-- The number of threads on `sleeplist` is what `val` lacks. -/
def Balanced {Thread : Type} (sem : Semaphore Thread) : Prop :=
  (sem.sleeplist.length : Int) = max 0 (-sem.val)

section Specs

variable
    {Thread : Type}
    {sem after : Semaphore Thread}

theorem increment_ok
    {value next : Int}
    (returned : increment value = .ok next) :
    next = value + 1 := by
  unfold increment at returned
  split_ifs at returned
  cases returned
  rfl

theorem decrement_ok
    {value next : Int}
    (returned : decrement value = .ok next) :
    next = value - 1 := by
  unfold decrement at returned
  split_ifs at returned
  cases returned
  rfl

/-- A post wakes the oldest sleeper, or leaves a token. -/
theorem postSem_cases
    (balanced : Balanced sem) :
    (postSem sem = .error .overflow ∧ sem.val = intMax) ∨
      (0 ≤ sem.val ∧ sem.sleeplist = [] ∧
        postSem sem = .ok (⟨sem.val + 1, []⟩, none)) ∨
      ∃ front thread,
        sem.val < 0 ∧ sem.sleeplist = front ++ [thread] ∧
          postSem sem = .ok (⟨sem.val + 1, front⟩, some thread) := by
  unfold Balanced at balanced
  by_cases full : sem.val = intMax
  · left
    refine ⟨?_, full⟩
    simp [postSem, increment, full]
    rfl
  · right
    have counted : increment sem.val = .ok (sem.val + 1) := by
      rw [increment, if_neg full]
    by_cases negative : sem.val < 0
    · right
      have nonempty : sem.sleeplist ≠ [] := by
        intro empty
        rw [empty] at balanced
        simp only [List.length_nil] at balanced
        omega
      refine ⟨sem.sleeplist.dropLast, sem.sleeplist.getLast nonempty,
        negative, (List.dropLast_append_getLast nonempty).symm, ?_⟩
      unfold postSem
      rw [counted]
      change
        (if sem.val + 1 ≤ 0 then _ else _ :
          Except Stop (Semaphore Thread × Option Thread)) = _
      rw [if_pos (by omega), List.getLast?_eq_some_getLast nonempty]
      rfl
    · left
      have empty : sem.sleeplist = [] := by
        apply List.eq_nil_of_length_eq_zero
        omega
      refine ⟨by omega, empty, ?_⟩
      unfold postSem
      rw [counted]
      change
        (if sem.val + 1 ≤ 0 then _ else _ :
          Except Stop (Semaphore Thread × Option Thread)) = _
      rw [if_neg (by omega), empty]
      rfl

theorem waitSem_cases
    (sem : Semaphore Thread)
    (thread : Thread) :
    (waitSem thread sem = .error .overflow ∧ sem.val = intMin) ∨
      (0 < sem.val ∧
        waitSem thread sem = .ok (true, ⟨sem.val - 1, sem.sleeplist⟩)) ∨
      (sem.val ≤ 0 ∧
        waitSem thread sem =
          .ok (false, ⟨sem.val - 1, thread :: sem.sleeplist⟩)) := by
  by_cases full : sem.val = intMin
  · left
    refine ⟨?_, full⟩
    simp [waitSem, decrement, full]
    rfl
  · right
    have counted : decrement sem.val = .ok (sem.val - 1) := by
      rw [decrement, if_neg full]
    unfold waitSem
    rw [counted]
    by_cases positive : 0 < sem.val
    · left
      refine ⟨positive, ?_⟩
      change
        (if 0 ≤ sem.val - 1 then _ else _ :
          Except Stop (Bool × Semaphore Thread)) = _
      rw [if_pos (by omega)]
      rfl
    · right
      refine ⟨by omega, ?_⟩
      change
        (if 0 ≤ sem.val - 1 then _ else _ :
          Except Stop (Bool × Semaphore Thread)) = _
      rw [if_neg (by omega)]
      rfl

/-- A sleeper which nobody granted a token leaves the list. -/
theorem resumeSem_asleep
    [DecidableEq Thread]
    (balanced : Balanced sem)
    {thread : Thread}
    (asleep : thread ∈ sem.sleeplist) :
    sem.val < 0 ∧
      resumeSem thread false sem =
        .ok ⟨sem.val + 1, sem.sleeplist.erase thread⟩ := by
  unfold Balanced at balanced
  have positive := List.length_pos_of_mem asleep
  have negative : sem.val < 0 := by omega
  refine ⟨negative, ?_⟩
  have counted : increment sem.val = .ok (sem.val + 1) := by
    rw [increment, if_neg]
    unfold intMax
    omega
  unfold resumeSem
  rw [if_neg Bool.false_ne_true, counted]
  change
    (if sem.val + 1 ≤ 0 then _ else _ :
      Except Stop (Semaphore Thread)) = _
  rw [if_pos (by omega)]
  rfl

theorem getSem_cases
    (sem : Semaphore Thread) :
    (0 < sem.val ∧
        getSem sem = (true, ⟨sem.val - 1, sem.sleeplist⟩)) ∨
      (sem.val ≤ 0 ∧ getSem sem = (false, sem)) := by
  by_cases positive : 0 < sem.val
  · left
    exact ⟨positive, if_pos positive⟩
  · right
    exact ⟨by omega, if_neg positive⟩

end Specs

end FudanOS.Kernel.Sem
