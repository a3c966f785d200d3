import FudanOS.Kernel.Sem
import FudanOS.Kernel.Sched

/-!
# Kills and waits which must not fail

`unalertable_wait_sem` asserts that its wait succeeds, and `cache_acquire` and
`cache_begin_op` panic when `wait_sem` fails.  `kill` of `kernel/proc.c` sets
`killed` and alerts the process; `sched` returns at once to a killed process.

`_wait_sem` takes `sched_lock` before it gives up `sem->lock`, so between its
enqueue and its switch nobody else wakes the process; only `killed` may be
written there, which is the same as writing it before the enqueue.  Both parts
are therefore one step.  A process may go on when it is runnable or running;
which CPU takes it does not matter here.
-/

namespace FudanOS.Kernel.KillSafety

open FudanOS.Library.Runs
open FudanOS.Kernel.Sem
open FudanOS.Kernel.Sched

/-- How the caller treats a wait which fails. -/
inductive Mode where
  /-- `unalertable_wait_sem(sem)` -/
  | unalertable
  /-- `if (!wait_sem(sem)) PANIC();` -/
  | checked
  /-- `wait_sem(sem)` with its result given back. -/
  | alertable
  deriving DecidableEq

/-- The wait in which a process is, with `wait->up`. -/
structure Wait (Name : Type) where
  sem : Name
  mode : Mode
  up : Bool
  deriving DecidableEq

/-- The processes, the semaphores and the waits. -/
structure State (Proc Name : Type) where
  procs : Proc → ProcInfo
  sems : Name → Semaphore Proc
  waits : Proc → Option (Wait Name)

inductive Label (Proc Name : Type) where
  | wait (proc : Proc) (sem : Name) (mode : Mode)
  | resume (proc : Proc)
  | post (sem : Name)
  /-- `tokill->killed = 1` -/
  | setKilled (proc : Proc)
  /-- `alert_proc(tokill)` -/
  | alert (proc : Proc)

/-- `_activate_proc(p, onalert)` on the process alone. -/
def activated (onalert : Bool) (info : ProcInfo) : ProcInfo :=
  match info.state with
  | .deepsleeping =>
      if onalert then info else { info with state := .runnable }
  | .sleeping => { info with state := .runnable }
  | .unused => { info with state := .runnable }
  | _ => info

theorem activateProc_procs
    {Cpu Proc : Type}
    [DecidableEq Proc]
    (proc : Proc)
    (onalert : Bool)
    (state : Sched.State Cpu Proc) :
    (activateProc proc onalert state).2.procs =
      Function.update state.procs proc
        (activated onalert (state.procs proc)) := by
  unfold activateProc activated
  cases known : (state.procs proc).state with
  | deepsleeping =>
      cases onalert with
      | true => simp
      | false => rfl
  | running => simp
  | runnable => simp
  | zombie => simp
  | sleeping => rfl
  | unused => rfl

/-- `alertable ? SLEEPING : DEEPSLEEPING` -/
def Mode.sleepState : Mode → ProcState
  | .unalertable => .deepsleeping
  | .checked => .sleeping
  | .alertable => .sleeping

/-- `sched` with a state to sleep in, on the process alone. -/
def slept (mode : Mode) (info : ProcInfo) : ProcInfo :=
  if info.killed then info else { info with state := mode.sleepState }

section Steps

variable
    {Proc Name : Type}
    [DecidableEq Proc]
    [DecidableEq Name]

def wait (proc : Proc) (sem : Name) (mode : Mode)
    (state : State Proc Name) : Except Stop (State Proc Name) :=
  match waitSem proc (state.sems sem) with
  | .error stop => .error stop
  | .ok (true, after) =>
      .ok { state with sems := Function.update state.sems sem after }
  | .ok (false, after) =>
      .ok
        { procs :=
            Function.update state.procs proc
              (slept mode (state.procs proc))
          sems := Function.update state.sems sem after
          waits :=
            Function.update state.waits proc (some ⟨sem, mode, false⟩) }

/-- The end of `_wait_sem`, and the assertion of the caller. -/
def resume (proc : Proc) (state : State Proc Name) :
    Except Stop (State Proc Name) :=
  match state.waits proc with
  | none => .ok state
  | some data =>
      match resumeSem proc data.up (state.sems data.sem) with
      | .error stop => .error stop
      | .ok after =>
          if data.up = false ∧ data.mode ≠ .alertable then
            .error .assertion
          else
            .ok { state with
              sems := Function.update state.sems data.sem after
              waits := Function.update state.waits proc none }

/-- `wait->up = true` -/
def grant (proc : Proc) (state : State Proc Name) : State Proc Name :=
  { state with
    procs :=
      Function.update state.procs proc
        (activated false (state.procs proc))
    waits :=
      Function.update state.waits proc
        ((state.waits proc).map fun data => { data with up := true }) }

def post (sem : Name) (state : State Proc Name) :
    Except Stop (State Proc Name) :=
  match postSem (state.sems sem) with
  | .error stop => .error stop
  | .ok (after, none) =>
      .ok { state with sems := Function.update state.sems sem after }
  | .ok (after, some proc) =>
      .ok { grant proc state with
        sems := Function.update state.sems sem after }

def step (state : State Proc Name) :
    Label Proc Name → Except Stop (State Proc Name)
  | .wait proc sem mode => wait proc sem mode state
  | .resume proc => resume proc state
  | .post sem => post sem state
  | .setKilled proc =>
      .ok { state with
        procs :=
          Function.update state.procs proc
            { state.procs proc with killed := true } }
  | .alert proc =>
      .ok { state with
        procs :=
          Function.update state.procs proc
            (activated true (state.procs proc)) }

/-- A process takes its steps while it may run; `kill` alerts what it killed. -/
def Allowed (state : State Proc Name) : Label Proc Name → Prop
  | .wait proc _ _ =>
      state.waits proc = none ∧ (state.procs proc).state.queued = true
  | .resume proc =>
      (state.waits proc).isSome ∧ (state.procs proc).state.queued = true
  | .alert proc => (state.procs proc).killed = true
  | _ => True

/--
No killed process goes to sleep in a wait which must not fail, and no alert
hits a process which sleeps in `cache_acquire` or `cache_begin_op`.
-/
def Careful (state : State Proc Name) : Label Proc Name → Prop
  | .wait proc sem mode =>
      mode ≠ .alertable → (state.sems sem).val ≤ 0 →
        (state.procs proc).killed = false
  | .alert proc =>
      ∀ data, state.waits proc = some data → data.mode = .checked →
        data.up = true
  | _ => True

end Steps

/-- No process is inside a wait, and every semaphore has its tokens. -/
structure Initial {Proc Name : Type} (state : State Proc Name) : Prop where
  waits : ∀ proc, state.waits proc = none
  empty : ∀ sem, (state.sems sem).sleeplist = []
  tokens : ∀ sem, 0 ≤ (state.sems sem).val

/-! ## The invariant -/

section Invariant

variable
    {Proc Name : Type}
    {state : State Proc Name}

/-- The sleeplists name the waits, and waits which must not fail sleep. -/
structure Kept (state : State Proc Name) : Prop where
  balanced : ∀ sem, Sem.Balanced (state.sems sem)
  nodup : ∀ sem, (state.sems sem).sleeplist.Nodup
  asleep :
    ∀ sem proc,
      proc ∈ (state.sems sem).sleeplist ↔
        ∃ data,
          state.waits proc = some data ∧ data.sem = sem ∧
            data.up = false
  deep :
    ∀ proc data, state.waits proc = some data → data.up = false →
      data.mode = .unalertable →
        (state.procs proc).state = .deepsleeping
  shallow :
    ∀ proc data, state.waits proc = some data → data.up = false →
      data.mode = .checked → (state.procs proc).state = .sleeping

theorem Initial.kept
    (initial : Initial state) :
    Kept state := by
  have nobody :
      ∀ proc data, state.waits proc = some data → False := by
    intro proc data known
    rw [initial.waits] at known
    cases known
  constructor
  · intro sem
    have tokens := initial.tokens sem
    unfold Sem.Balanced
    rw [initial.empty sem, List.length_nil]
    omega
  · intro sem
    rw [initial.empty sem]
    exact List.nodup_nil
  · intro sem proc
    rw [initial.empty sem]
    constructor
    · intro member
      cases member
    · rintro ⟨data, known, -⟩
      exact absurd known fun found => nobody proc data found
  · intro proc data known
    exact absurd known fun found => nobody proc data found
  · intro proc data known
    exact absurd known fun found => nobody proc data found

/-- A wait which may go on without a grant is an alertable one. -/
theorem Kept.alertable
    (kept : Kept state)
    {proc : Proc}
    {data : Wait Name}
    (known : state.waits proc = some data)
    (notUp : data.up = false)
    (runs : (state.procs proc).state.queued = true) :
    data.mode = .alertable := by
  cases isMode : data.mode with
  | unalertable =>
      rw [kept.deep proc data known notUp isMode] at runs
      cases runs
  | checked =>
      rw [kept.shallow proc data known notUp isMode] at runs
      cases runs
  | alertable => rfl

variable
    [DecidableEq Proc]
    [DecidableEq Name]

omit [DecidableEq Proc] in
/-- A semaphore loses or gains a token; nobody sleeps or wakes. -/
theorem Kept.setSem
    (kept : Kept state)
    {sem : Name}
    {after : Semaphore Proc}
    (balanced : Sem.Balanced after)
    (same : after.sleeplist = (state.sems sem).sleeplist) :
    Kept { state with sems := Function.update state.sems sem after } := by
  have lists :
      ∀ other,
        (Function.update state.sems sem after other).sleeplist =
          (state.sems other).sleeplist := by
    intro other
    by_cases here : other = sem
    · subst here
      rw [Function.update_self, same]
    · rw [Function.update_of_ne here]
  refine ⟨?_, ?_, ?_, kept.deep, kept.shallow⟩
  · intro other
    by_cases here : other = sem
    · subst here
      simpa using balanced
    · simpa [here] using kept.balanced other
  · intro other
    simp only [lists]
    exact kept.nodup other
  · intro other proc
    simp only [lists]
    exact kept.asleep other proc

theorem Kept.wait
    (kept : Kept state)
    {proc : Proc}
    {sem : Name}
    {mode : Mode}
    (allowed : Allowed state (.wait proc sem mode))
    (careful : Careful state (.wait proc sem mode)) :
    match KillSafety.wait proc sem mode state with
    | .ok after => Kept after
    | .error stop => stop = .overflow := by
  have balanced := kept.balanced sem
  unfold Sem.Balanced at balanced
  unfold KillSafety.wait
  rcases waitSem_cases (state.sems sem) proc with
    ⟨stopped, -⟩ | ⟨positive, returned⟩ | ⟨empty, sleeps⟩
  · rw [stopped]
  · rw [returned]
    refine kept.setSem ?_ rfl
    unfold Sem.Balanced
    simp only
    omega
  · rw [sleeps]
    have outside := allowed.1
    have notListed :
        ∀ other, proc ∉ (state.sems other).sleeplist := by
      intro other
      rw [kept.asleep]
      rintro ⟨data, known, -⟩
      rw [outside] at known
      cases known
    have sleepsNow :
        mode ≠ .alertable →
          (slept mode (state.procs proc)).state = mode.sleepState := by
      intro must
      have alive := careful must empty
      simp [slept, alive]
    constructor
    · intro other
      by_cases here : other = sem
      · subst here
        simp only [Function.update_self, Sem.Balanced, List.length_cons]
        omega
      · simpa [here] using kept.balanced other
    · intro other
      by_cases here : other = sem
      · subst here
        simp only [Function.update_self]
        exact List.nodup_cons.mpr ⟨notListed other, kept.nodup other⟩
      · simpa [here] using kept.nodup other
    · intro other another
      by_cases same : another = proc
      · subst same
        by_cases here : other = sem
        · subst here
          simp
        · simp [here, notListed other, Ne.symm here]
      · by_cases here : other = sem
        · subst here
          simpa [same] using kept.asleep other another
        · simpa [same, here] using kept.asleep other another
    · intro another data known notUp isMode
      by_cases same : another = proc
      · subst same
        simp only [Function.update_self, Option.some.injEq] at known ⊢
        subst known
        simp only at isMode
        subst isMode
        exact sleepsNow (by decide)
      · simp only [Function.update_of_ne same] at known ⊢
        exact kept.deep another data known notUp isMode
    · intro another data known notUp isMode
      by_cases same : another = proc
      · subst same
        simp only [Function.update_self, Option.some.injEq] at known ⊢
        subst known
        simp only at isMode
        subst isMode
        exact sleepsNow (by decide)
      · simp only [Function.update_of_ne same] at known ⊢
        exact kept.shallow another data known notUp isMode

/-- A process leaves the list it is on, with a grant or with its wait. -/
theorem Kept.release
    (kept : Kept state)
    {proc : Proc}
    {sem : Name}
    {after : Semaphore Proc}
    (info : ProcInfo)
    {value : Option (Wait Name)}
    (granted : ∀ data, value = some data → data.up = true)
    (balanced : Sem.Balanced after)
    (nodup : after.sleeplist.Nodup)
    (members :
      ∀ other,
        other ∈ after.sleeplist ↔
          other ≠ proc ∧ other ∈ (state.sems sem).sleeplist)
    (single : ∀ other, other ≠ sem → proc ∉ (state.sems other).sleeplist) :
    Kept
      { procs := Function.update state.procs proc info
        sems := Function.update state.sems sem after
        waits := Function.update state.waits proc value } := by
  constructor
  · intro other
    by_cases here : other = sem
    · subst here
      simpa using balanced
    · simpa [here] using kept.balanced other
  · intro other
    by_cases here : other = sem
    · subst here
      simpa using nodup
    · simpa [here] using kept.nodup other
  · intro other another
    by_cases same : another = proc
    · subst same
      have absent :
          another ∉ (Function.update state.sems sem after other).sleeplist := by
        by_cases here : other = sem
        · subst here
          rw [Function.update_self, members]
          exact fun both => both.1 rfl
        · rw [Function.update_of_ne here]
          exact single other here
      refine iff_of_false absent ?_
      rintro ⟨data, known, -, notUp⟩
      simp only [Function.update_self] at known
      rw [granted data known] at notUp
      cases notUp
    · simp only [Function.update_of_ne same]
      rw [← kept.asleep other another]
      by_cases here : other = sem
      · subst here
        rw [Function.update_self, members]
        exact and_iff_right same
      · rw [Function.update_of_ne here]
  · intro another data known notUp isMode
    by_cases same : another = proc
    · subst same
      simp only [Function.update_self] at known
      rw [granted data known] at notUp
      cases notUp
    · simp only [Function.update_of_ne same] at known ⊢
      exact kept.deep another data known notUp isMode
  · intro another data known notUp isMode
    by_cases same : another = proc
    · subst same
      simp only [Function.update_self] at known
      rw [granted data known] at notUp
      cases notUp
    · simp only [Function.update_of_ne same] at known ⊢
      exact kept.shallow another data known notUp isMode

omit [DecidableEq Proc] [DecidableEq Name] in
theorem Kept.single
    (kept : Kept state)
    {proc : Proc}
    {data : Wait Name}
    (known : state.waits proc = some data)
    {other : Name}
    (different : other ≠ data.sem) :
    proc ∉ (state.sems other).sleeplist := by
  rw [kept.asleep]
  rintro ⟨found, isFound, isSem, -⟩
  rw [known] at isFound
  cases isFound
  exact different isSem.symm

theorem Kept.resume
    (kept : Kept state)
    {proc : Proc}
    (allowed : Allowed state (.resume proc)) :
    ∃ after, KillSafety.resume proc state = .ok after ∧ Kept after := by
  rcases allowed with ⟨present, runs⟩
  rcases Option.isSome_iff_exists.mp present with ⟨data, known⟩
  have leaves :
      ∀ after : Semaphore Proc, Sem.Balanced after → after.sleeplist.Nodup →
        (∀ other,
          other ∈ after.sleeplist ↔
            other ≠ proc ∧ other ∈ (state.sems data.sem).sleeplist) →
        Kept
          { state with
            sems := Function.update state.sems data.sem after
            waits := Function.update state.waits proc none } := by
    intro after balanced nodup members
    have noWait :
        ∀ found, (none : Option (Wait Name)) = some found →
          found.up = true := by
      intro found impossible
      cases impossible
    have released :=
      kept.release (state.procs proc) noWait balanced nodup members
        fun other => kept.single known
    rwa [Function.update_eq_self] at released
  unfold KillSafety.resume
  rw [known]
  cases isUp : data.up with
  | true =>
      have notListed : proc ∉ (state.sems data.sem).sleeplist := by
        rw [kept.asleep]
        rintro ⟨found, isFound, -, notUp⟩
        rw [known] at isFound
        cases isFound
        rw [isUp] at notUp
        cases notUp
      refine ⟨_, ?_,
        leaves (state.sems data.sem) (kept.balanced _) (kept.nodup _) ?_⟩
      · have resumed :
            resumeSem proc true (state.sems data.sem) =
              .ok (state.sems data.sem) :=
          rfl
        simp only [isUp, resumed]
        rfl
      · intro other
        constructor
        · intro member
          exact ⟨fun same => notListed (same ▸ member), member⟩
        · exact fun both => both.2
  | false =>
      have isMode := kept.alertable known isUp runs
      have listed : proc ∈ (state.sems data.sem).sleeplist :=
        (kept.asleep data.sem proc).mpr ⟨data, known, rfl, isUp⟩
      have balanced := kept.balanced data.sem
      have nodup := kept.nodup data.sem
      rcases resumeSem_asleep balanced listed with ⟨negative, resumed⟩
      have length := List.length_erase_of_mem listed
      have positive := List.length_pos_of_mem listed
      refine ⟨_, ?_,
        leaves
          ⟨(state.sems data.sem).val + 1,
            (state.sems data.sem).sleeplist.erase proc⟩
          ?_ (nodup.erase proc) fun other => nodup.mem_erase_iff⟩
      · simp [isUp, resumed, isMode]
      · unfold Sem.Balanced at balanced ⊢
        simp only [length]
        omega

theorem Kept.post
    (kept : Kept state)
    (sem : Name) :
    match KillSafety.post sem state with
    | .ok after => Kept after
    | .error stop => stop = .overflow := by
  have balanced := kept.balanced sem
  unfold KillSafety.post
  rcases postSem_cases balanced with
    ⟨stopped, -⟩ | ⟨enough, nobody, posted⟩ |
      ⟨front, proc, negative, split, posted⟩
  · rw [stopped]
  · rw [posted]
    refine kept.setSem ?_ nobody.symm
    unfold Sem.Balanced at balanced ⊢
    simp only [List.length_nil]
    omega
  · rw [posted]
    have nodup := kept.nodup sem
    rw [split] at nodup
    have listed : proc ∈ (state.sems sem).sleeplist := by
      rw [split]
      simp
    rcases (kept.asleep sem proc).mp listed with ⟨data, known, rfl, notUp⟩
    have notFront : proc ∉ front := by
      intro early
      exact (List.nodup_append.mp nodup).2.2 proc early proc
        List.mem_cons_self rfl
    refine kept.release (activated false (state.procs proc)) ?_ ?_
      (List.nodup_append.mp nodup).1 ?_ fun other => kept.single known
    · intro found isFound
      rw [known] at isFound
      cases isFound
      rfl
    · unfold Sem.Balanced at balanced ⊢
      rw [split] at balanced
      simp only [List.length_append, List.length_singleton] at balanced ⊢
      omega
    · intro other
      rw [split]
      constructor
      · intro member
        exact ⟨fun same => notFront (same ▸ member),
          List.mem_append_left _ member⟩
      · rintro ⟨different, member⟩
        simpa [different] using member

omit [DecidableEq Name] in
/-- A change of the processes which keeps the sleepers asleep. -/
theorem Kept.setProc
    (kept : Kept state)
    {proc : Proc}
    {info : ProcInfo}
    (stays :
      ∀ data, state.waits proc = some data → data.up = false →
        data.mode ≠ .alertable → info.state = (state.procs proc).state) :
    Kept { state with procs := Function.update state.procs proc info } := by
  refine ⟨kept.balanced, kept.nodup, kept.asleep, ?_, ?_⟩
  · intro another data known notUp isMode
    by_cases same : another = proc
    · subst same
      simp only [Function.update_self]
      rw [stays data known notUp (by rw [isMode]; decide)]
      exact kept.deep another data known notUp isMode
    · simp only [Function.update_of_ne same]
      exact kept.deep another data known notUp isMode
  · intro another data known notUp isMode
    by_cases same : another = proc
    · subst same
      simp only [Function.update_self]
      rw [stays data known notUp (by rw [isMode]; decide)]
      exact kept.shallow another data known notUp isMode
    · simp only [Function.update_of_ne same]
      exact kept.shallow another data known notUp isMode

/-- A step of a careful run keeps the invariant, and no assertion fails. -/
theorem step_keeps
    (kept : Kept state)
    {label : Label Proc Name}
    (allowed : Allowed state label)
    (careful : Careful state label) :
    match step state label with
    | .ok after => Kept after
    | .error stop => stop = .overflow := by
  cases label with
  | wait proc sem mode => exact kept.wait allowed careful
  | resume proc =>
      rcases kept.resume allowed with ⟨after, resumed, keptAfter⟩
      simp only [step]
      rw [resumed]
      exact keptAfter
  | post sem => exact kept.post sem
  | setKilled proc => exact kept.setProc fun _ _ _ _ => rfl
  | alert proc =>
      refine kept.setProc ?_
      intro data known notUp must
      have deep : data.mode = .unalertable := by
        cases isMode : data.mode with
        | unalertable => rfl
        | checked =>
            rw [careful data known isMode] at notUp
            cases notUp
        | alertable => exact absurd isMode must
      have sleeps := kept.deep proc data known notUp deep
      simp [activated, sleeps]

/--
In a careful run no kill makes a wait fail which must not: such a wait goes on
only once it was granted a post, and no assertion fails.
-/
theorem careful_waits_succeed
    {start finish : State Proc Name}
    {labels : List (Label Proc Name)}
    (initial : Initial start)
    (run :
      Run (Takes step)
        (fun state label => Allowed state label ∧ Careful state label)
        start labels finish) :
    (∀ proc data, finish.waits proc = some data →
      data.mode ≠ .alertable →
      (finish.procs proc).state.queued = true → data.up = true) ∧
    ∀ label, Allowed finish label → Careful finish label →
      ∀ stop, step finish label = .error stop → stop = .overflow := by
  have kept : Kept finish := by
    refine run.invariant initial.kept ?_
    intro source label target kept both taken
    have after := step_keeps kept both.1 both.2
    unfold Takes at taken
    rw [taken] at after
    exact after
  refine ⟨?_, ?_⟩
  · intro proc data known must runs
    by_contra notUp
    exact must
      (kept.alertable known (by simpa using notUp) runs)
  · intro label allowed careful stop stopped
    have after := step_keeps kept allowed careful
    rw [stopped] at after
    exact after

end Invariant

/-! ## Two processes and a sleep lock -/

section Decide

variable
    {Proc Name : Type}
    {state : State Proc Name}

instance (label : Label Proc Name) : Decidable (Allowed state label) :=
  match label with
  | .wait proc _ _ =>
      decidable_of_iff
        ((state.waits proc).isNone = true ∧
          (state.procs proc).state.queued = true)
        (by simp [Allowed])
  | .resume _ => inferInstanceAs (Decidable (_ ∧ _))
  | .post _ => isTrue trivial
  | .setKilled _ => isTrue trivial
  | .alert _ => inferInstanceAs (Decidable (_ = _))

instance (label : Label Proc Name) : Decidable (Careful state label) :=
  match label with
  | .wait _ _ _ => inferInstanceAs (Decidable (_ → _ → _))
  | .resume _ => isTrue trivial
  | .post _ => isTrue trivial
  | .setKilled _ => isTrue trivial
  | .alert proc =>
      decidable_of_iff
        ((state.waits proc).all
          (fun data => decide (data.mode = .checked → data.up = true)) =
            true)
        (by
          cases known : state.waits proc with
          | none => simp [Careful, known]
          | some data =>
              simp only [Careful, known, Option.all_some,
                decide_eq_true_eq, Option.some.injEq, forall_eq'])

end Decide

/-- Two running processes and one semaphore with one token. -/
def oneLock : State (Fin 2) Unit where
  procs := fun _ => ⟨false, .running⟩
  sems := fun _ => initSem 1
  waits := fun _ => none

theorem initial_oneLock : Initial oneLock := by
  exact ⟨fun _ => rfl, fun _ => rfl, fun _ => Int.one_nonneg⟩

/-- Process 0 is killed while it sleeps for the lock of process 1. -/
def killedAsleep : List (Label (Fin 2) Unit) :=
  [.wait 1 () .unalertable, .wait 0 () .unalertable, .setKilled 0,
    .alert 0, .post ()]

theorem careful_waits_succeed_killed_asleep :
    ∃ state : State (Fin 2) Unit,
      Run (Takes step)
          (fun state label => Allowed state label ∧ Careful state label)
          oneLock killedAsleep state ∧
        state.waits 0 = some ⟨(), .unalertable, true⟩ ∧
        ∀ stop, step state (.resume 0) = .error stop →
          stop = .overflow := by
  have computed :
      ((executeChecked step
        (fun state label =>
          decide (Allowed state label ∧ Careful state label))
        oneLock killedAsleep).map
          fun state =>
            decide
              (state.waits 0 = some ⟨(), .unalertable, true⟩ ∧
                Allowed state (.resume 0))) = some true := by
    decide +kernel
  rcases Option.map_eq_some_iff.mp computed with ⟨state, executed, facts⟩
  have run :
      Run (Takes step)
        (fun state label => Allowed state label ∧ Careful state label)
        oneLock killedAsleep state :=
    Run.of_executeChecked (fun _ _ => of_decide_eq_true) executed
  rcases of_decide_eq_true facts with ⟨granted, allowed⟩
  exact ⟨state, run, granted,
    (careful_waits_succeed initial_oneLock run).2 (.resume 0) allowed
      trivial⟩

/-- Process 0 is killed, then waits for the lock of process 1. -/
def killedBefore : List (Label (Fin 2) Unit) :=
  [.wait 1 () .unalertable, .setKilled 0, .wait 0 () .unalertable]

/-- `sched` returns at once, and the assertion of the macro fails. -/
theorem killed_wait_fails :
    ¬ ∀ (start finish : State (Fin 2) Unit)
        (labels : List (Label (Fin 2) Unit)),
        Initial start →
        Run (Takes step) Allowed start labels finish →
          ∀ label, Allowed finish label →
            step finish label ≠ .error .assertion := by
  intro claimed
  have computed :
      ((executeChecked step
        (fun state label => decide (Allowed state label))
        oneLock killedBefore).map
          fun state =>
            decide (Allowed state (.resume 0)) &&
              match step state (.resume 0) with
              | .error stop => decide (stop = .assertion)
              | .ok _ => false) = some true := by
    decide +kernel
  rcases Option.map_eq_some_iff.mp computed with ⟨state, executed, facts⟩
  have run : Run (Takes step) Allowed oneLock killedBefore state :=
    Run.of_executeChecked (fun _ _ => of_decide_eq_true) executed
  rcases Bool.and_eq_true_iff.mp facts with ⟨allowed, stops⟩
  apply claimed oneLock state killedBefore initial_oneLock run (.resume 0)
    (of_decide_eq_true allowed)
  split at stops
  · rename_i stop stopped
    rw [stopped, of_decide_eq_true stops]
  · cases stops

end FudanOS.Kernel.KillSafety
