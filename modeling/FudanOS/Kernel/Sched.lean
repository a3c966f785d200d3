import FudanOS.Library.Runs
import Mathlib.Data.List.Count
import Mathlib.Data.Fintype.Basic

/-!
# The scheduler

`sched`, `_activate_proc` and their helpers from `kernel/sched.c`, on any
number of CPUs.  Every step holds `sched_lock` until the switch is done.  The
queue `rq` is a list: `_insert_into_list(&rq, p)` puts a process at its front,
`_insert_into_list(rq.prev, p)` at its end, and `_detach_from_list` takes it
off.  The timers and the page tables which a switch sets up are left out.
-/

namespace FudanOS.Kernel.Sched

open FudanOS.Library.Runs

/-- `enum procstate` -/
inductive ProcState where
  | unused
  | runnable
  | running
  | sleeping
  | deepsleeping
  | zombie
  deriving DecidableEq

/-- The fields of `Proc` which the scheduler reads. -/
structure ProcInfo where
  killed : Bool
  state : ProcState
  deriving DecidableEq

/-- The processes, the queue and what runs on each CPU. -/
structure State (Cpu Proc : Type) where
  procs : Proc → ProcInfo
  rq : List Proc
  thisproc : Cpu → Proc

/-- A section under `sched_lock`, or a write of `killed`. -/
inductive Label (Cpu Proc : Type) where
  /-- `sched(new_state)` on a CPU, with the value of `panic_flag`. -/
  | sched (cpu : Cpu) (newState : ProcState) (panicFlag : Bool)
  | activate (proc : Proc) (onalert : Bool)
  /-- `tokill->killed = 1` -/
  | setKilled (proc : Proc)
  /-- `init_proc` on memory which is no process, or no longer one. -/
  | create (proc : Proc)

/-- The state is `RUNNING` or `RUNNABLE`. -/
def ProcState.queued : ProcState → Bool
  | .running => true
  | .runnable => true
  | _ => false

section Functions

variable
    {Cpu Proc : Type}
    [DecidableEq Cpu]
    [DecidableEq Proc]
    (idle : Cpu → Proc)

def State.setState (state : State Cpu Proc) (proc : Proc)
    (newState : ProcState) : State Cpu Proc :=
  { state with
    procs :=
      Function.update state.procs proc
        { state.procs proc with state := newState } }

/-- `_activate_proc(p, onalert)` -/
def activateProc (proc : Proc) (onalert : Bool)
    (state : State Cpu Proc) : Bool × State Cpu Proc :=
  match (state.procs proc).state with
  | .running => (false, state)
  | .runnable => (false, state)
  | .zombie => (false, state)
  | .deepsleeping =>
      if onalert then
        (false, state)
      else
        (true,
          { state.setState proc .runnable with rq := proc :: state.rq })
  | .sleeping =>
      (true, { state.setState proc .runnable with rq := proc :: state.rq })
  | .unused =>
      (true, { state.setState proc .runnable with rq := proc :: state.rq })

/-- `update_this_state(new_state)` -/
def updateThisState (cpu : Cpu) (newState : ProcState)
    (state : State Cpu Proc) : State Cpu Proc :=
  let this := state.thisproc cpu
  let detached :=
    if this ≠ idle cpu ∧ (state.procs this).state.queued then
      { state with rq := state.rq.erase this }
    else
      state
  let changed := detached.setState this newState
  if this ≠ idle cpu ∧ newState.queued then
    { changed with rq := changed.rq ++ [this] }
  else
    changed

/-- `pick_next()` -/
def pickNext (cpu : Cpu) (panicFlag : Bool) (state : State Cpu Proc) :
    Proc :=
  if panicFlag then
    idle cpu
  else
    match
      state.rq.find? fun proc =>
        decide ((state.procs proc).state = .runnable)
    with
    | some proc => proc
    | none => idle cpu

/-- `update_this_proc(p)` -/
def updateThisProc (cpu : Cpu) (proc : Proc) (state : State Cpu Proc) :
    State Cpu Proc :=
  { state with thisproc := Function.update state.thisproc cpu proc }

/-- `sched(new_state)`; nothing when an `ASSERT` fails. -/
def sched (cpu : Cpu) (newState : ProcState) (panicFlag : Bool)
    (state : State Cpu Proc) : Except Unit (State Cpu Proc) :=
  let this := state.procs (state.thisproc cpu)
  if this.state ≠ .running then
    .error ()
  else if this.killed ∧ newState ≠ .zombie then
    .ok state
  else
    let updated := updateThisState idle cpu newState state
    let next := pickNext idle cpu panicFlag updated
    let switched := updateThisProc cpu next updated
    if (switched.procs next).state ≠ .runnable then
      .error ()
    else
      .ok (switched.setState next .running)

/-- One step. -/
def step (state : State Cpu Proc) :
    Label Cpu Proc → Except Unit (State Cpu Proc)
  | .sched cpu newState panicFlag => sched idle cpu newState panicFlag state
  | .activate proc onalert => .ok (activateProc proc onalert state).2
  | .setKilled proc =>
      .ok { state with
        procs :=
          Function.update state.procs proc
            { state.procs proc with killed := true } }
  | .create proc =>
      .ok { state with
        procs := Function.update state.procs proc ⟨false, .unused⟩ }

/--
The callers of `sched` pass a state in which a process may leave the CPU, and
the idle process only yields.  Only processes of the tree are killed, and a
new process takes memory which is not in use.
-/
def Allowed (state : State Cpu Proc) : Label Cpu Proc → Prop
  | .sched cpu newState _ =>
      newState ≠ .running ∧ newState ≠ .unused ∧
        (state.thisproc cpu = idle cpu → newState = .runnable)
  | .activate _ _ => True
  | .setKilled proc => ∀ cpu, proc ≠ idle cpu
  | .create proc =>
      (state.procs proc).state = .unused ∨
        (state.procs proc).state = .zombie

end Functions

/-! ## The invariant -/

section Invariant

variable
    {Cpu Proc : Type}
    [DecidableEq Proc]
    {idle : Cpu → Proc}
    {state target : State Cpu Proc}

/-- The state field, the queue and the current processes agree. -/
structure Scheduled (idle : Cpu → Proc) (state : State Cpu Proc) :
    Prop where
  /-- Each process which may run is linked once, and no other is. -/
  linked :
    ∀ proc, (∀ cpu, proc ≠ idle cpu) →
      state.rq.count proc =
        if (state.procs proc).state.queued then 1 else 0
  /-- What is current on a CPU is running. -/
  current : ∀ cpu, (state.procs (state.thisproc cpu)).state = .running
  /-- What is running is current on a CPU. -/
  running :
    ∀ proc, (state.procs proc).state = .running →
      ∃ cpu, state.thisproc cpu = proc
  /-- No process runs on two CPUs. -/
  single :
    ∀ left right, state.thisproc left = state.thisproc right →
      left = right
  idleUnlinked : ∀ cpu, idle cpu ∉ state.rq
  idleRunnable :
    ∀ cpu, state.thisproc cpu ≠ idle cpu →
      (state.procs (idle cpu)).state = .runnable
  idleAlive : ∀ cpu, (state.procs (idle cpu)).killed = false
  idleHome :
    ∀ cpu other, state.thisproc other = idle cpu → other = cpu

/-- The state after `init_sched`. -/
structure Initial (idle : Cpu → Proc) (state : State Cpu Proc) :
    Prop where
  distinct : Function.Injective idle
  running :
    ∀ cpu, state.procs (idle cpu) = ⟨false, .running⟩
  unused :
    ∀ proc, (∀ cpu, proc ≠ idle cpu) →
      (state.procs proc).state = .unused
  empty : state.rq = []
  thisproc : state.thisproc = idle

theorem Initial.scheduled
    (initial : Initial idle state) :
    Scheduled idle state := by
  constructor
  · intro proc notIdle
    rw [initial.empty, initial.unused proc notIdle]
    rfl
  · intro cpu
    rw [initial.thisproc, initial.running]
  · intro proc isRunning
    by_contra nowhere
    have notIdle : ∀ cpu, proc ≠ idle cpu := by
      rintro cpu rfl
      exact nowhere ⟨cpu, by rw [initial.thisproc]⟩
    rw [initial.unused proc notIdle] at isRunning
    cases isRunning
  · intro left right same
    rw [initial.thisproc] at same
    exact initial.distinct same
  · intro cpu
    rw [initial.empty]
    exact List.not_mem_nil
  · intro cpu away
    rw [initial.thisproc] at away
    exact absurd rfl away
  · intro cpu
    rw [initial.running]
  · intro cpu other same
    rw [initial.thisproc] at same
    exact initial.distinct same

/-- An idle process may run. -/
theorem Scheduled.idle_queued
    (scheduled : Scheduled idle state)
    (cpu : Cpu) :
    (state.procs (idle cpu)).state.queued = true := by
  by_cases home : state.thisproc cpu = idle cpu
  · rw [← home, scheduled.current cpu]
    rfl
  · rw [scheduled.idleRunnable cpu home]
    rfl

theorem state_setState
    (proc other : Proc)
    (newState : ProcState) :
    ((state.setState proc newState).procs other).state =
      if other = proc then newState else (state.procs other).state := by
  by_cases same : other = proc
  · subst same
    simp [State.setState]
  · simp [State.setState, same]

theorem killed_setState
    (proc other : Proc)
    (newState : ProcState) :
    ((state.setState proc newState).procs other).killed =
      (state.procs other).killed := by
  by_cases same : other = proc
  · subst same
    simp [State.setState]
  · simp [State.setState, same]

/-- A process which sleeps or is new enters the queue. -/
theorem Scheduled.enter
    (scheduled : Scheduled idle state)
    {proc : Proc}
    (out : (state.procs proc).state.queued = false) :
    Scheduled idle
      { state.setState proc .runnable with rq := proc :: state.rq } := by
  have notIdle : ∀ cpu, proc ≠ idle cpu := by
    rintro cpu rfl
    rw [scheduled.idle_queued cpu] at out
    cases out
  have notRunning : (state.procs proc).state ≠ .running := by
    intro isRunning
    rw [isRunning] at out
    cases out
  have stays :
      ∀ other, other ≠ proc →
        ((state.setState proc .runnable).procs other).state =
          (state.procs other).state := by
    intro other different
    rw [state_setState, if_neg different]
  have notCurrent : ∀ cpu, state.thisproc cpu ≠ proc := by
    rintro cpu rfl
    exact notRunning (scheduled.current cpu)
  constructor
  · intro other otherNotIdle
    rw [List.count_cons]
    by_cases same : other = proc
    · subst same
      have linked := scheduled.linked other otherNotIdle
      rw [out] at linked
      simp [linked, state_setState, ProcState.queued]
    · have apart : (proc == other) = false := by
        simpa using Ne.symm same
      simp only [apart, stays other same]
      exact scheduled.linked other otherNotIdle
  · intro cpu
    exact (stays _ (notCurrent cpu)).trans (scheduled.current cpu)
  · intro other isRunning
    by_cases same : other = proc
    · subst same
      simp [state_setState] at isRunning
    · rw [stays other same] at isRunning
      exact scheduled.running other isRunning
  · exact scheduled.single
  · intro cpu member
    rcases List.mem_cons.mp member with same | old
    · exact notIdle cpu same.symm
    · exact scheduled.idleUnlinked cpu old
  · intro cpu away
    exact (stays _ (notIdle cpu).symm).trans
      (scheduled.idleRunnable cpu away)
  · intro cpu
    exact (killed_setState _ _ _).trans (scheduled.idleAlive cpu)
  · exact scheduled.idleHome

theorem Scheduled.activate
    (scheduled : Scheduled idle state)
    (proc : Proc)
    (onalert : Bool) :
    Scheduled idle (activateProc proc onalert state).2 := by
  unfold activateProc
  cases known : (state.procs proc).state with
  | running => exact scheduled
  | runnable => exact scheduled
  | zombie => exact scheduled
  | deepsleeping =>
      simp only
      split_ifs
      · exact scheduled
      · exact scheduled.enter (by rw [known]; rfl)
  | sleeping => exact scheduled.enter (by rw [known]; rfl)
  | unused => exact scheduled.enter (by rw [known]; rfl)

/-- A change which the scheduler does not see. -/
theorem Scheduled.of_states
    (scheduled : Scheduled idle state)
    (states :
      ∀ proc,
        (target.procs proc).state = (state.procs proc).state ∨
          (target.procs proc).state.queued = false ∧
            (state.procs proc).state.queued = false)
    (alive : ∀ cpu, (target.procs (idle cpu)).killed = false)
    (rq : target.rq = state.rq)
    (thisproc : target.thisproc = state.thisproc) :
    Scheduled idle target := by
  have queued :
      ∀ proc,
        (target.procs proc).state.queued =
          (state.procs proc).state.queued := by
    intro proc
    rcases states proc with same | ⟨after, before⟩
    · rw [same]
    · rw [after, before]
  have exact_ :
      ∀ proc, (state.procs proc).state.queued = true →
        (target.procs proc).state = (state.procs proc).state := by
    intro proc isQueued
    rcases states proc with same | ⟨-, before⟩
    · exact same
    · rw [isQueued] at before
      cases before
  constructor
  · intro proc notIdle
    rw [rq, queued]
    exact scheduled.linked proc notIdle
  · intro cpu
    have isRunning := scheduled.current cpu
    rw [thisproc, exact_ _ (by rw [isRunning]; rfl)]
    exact isRunning
  · intro proc isRunning
    have isQueued : (state.procs proc).state.queued = true := by
      rw [← queued, isRunning]
      rfl
    rw [exact_ proc isQueued] at isRunning
    rw [thisproc]
    exact scheduled.running proc isRunning
  · rw [thisproc]
    exact scheduled.single
  · rw [rq]
    exact scheduled.idleUnlinked
  · intro cpu away
    rw [thisproc] at away
    have isRunnable := scheduled.idleRunnable cpu away
    rw [exact_ _ (by rw [isRunnable]; rfl)]
    exact isRunnable
  · exact alive
  · rw [thisproc]
    exact scheduled.idleHome

/-! ## A switch -/

/-- The invariant while one CPU has left its process. -/
structure Vacant
    (idle : Cpu → Proc)
    (cpu : Cpu)
    (state : State Cpu Proc) : Prop where
  linked :
    ∀ proc, (∀ other, proc ≠ idle other) →
      state.rq.count proc =
        if (state.procs proc).state.queued then 1 else 0
  current :
    ∀ other, other ≠ cpu →
      (state.procs (state.thisproc other)).state = .running
  running :
    ∀ proc, (state.procs proc).state = .running →
      ∃ other, other ≠ cpu ∧ state.thisproc other = proc
  single :
    ∀ left right, state.thisproc left = state.thisproc right →
      left = right
  idleUnlinked : ∀ other, idle other ∉ state.rq
  idleRunnable :
    ∀ other, other = cpu ∨ state.thisproc other ≠ idle other →
      (state.procs (idle other)).state = .runnable
  idleAlive : ∀ other, (state.procs (idle other)).killed = false
  idleHome :
    ∀ left right, state.thisproc right = idle left → right = left

/-- `update_this_state` when the idle process yields. -/
theorem Scheduled.vacate_idle
    (scheduled : Scheduled idle state)
    {cpu : Cpu}
    (home : state.thisproc cpu = idle cpu) :
    Vacant idle cpu (updateThisState idle cpu .runnable state) := by
  have updated :
      updateThisState idle cpu .runnable state =
        state.setState (idle cpu) .runnable := by
    simp [updateThisState, home]
  rw [updated]
  have others :
      ∀ proc, proc ≠ idle cpu →
        ((state.setState (idle cpu) .runnable).procs proc).state =
          (state.procs proc).state := by
    intro proc different
    rw [state_setState, if_neg different]
  constructor
  · intro proc notIdle
    rw [others proc (notIdle cpu)]
    exact scheduled.linked proc notIdle
  · intro other different
    have away : state.thisproc other ≠ idle cpu :=
      fun same => different (scheduled.idleHome cpu other same)
    exact (others _ away).trans (scheduled.current other)
  · intro proc isRunning
    by_cases same : proc = idle cpu
    · subst same
      simp [state_setState] at isRunning
    · rw [others proc same] at isRunning
      rcases scheduled.running proc isRunning with ⟨other, runs⟩
      refine ⟨other, ?_, runs⟩
      rintro rfl
      exact same (runs.symm.trans home)
  · exact scheduled.single
  · exact scheduled.idleUnlinked
  · intro other idles
    by_cases same : idle other = idle cpu
    · rw [same, state_setState, if_pos rfl]
    · rw [others _ same]
      refine scheduled.idleRunnable other (idles.resolve_left ?_)
      rintro rfl
      exact same rfl
  · intro other
    rw [killed_setState]
    exact scheduled.idleAlive other
  · exact scheduled.idleHome

/-- `update_this_state` of any other process. -/
theorem Scheduled.vacate
    (scheduled : Scheduled idle state)
    {cpu : Cpu}
    (away : state.thisproc cpu ≠ idle cpu)
    {newState : ProcState}
    (leaves : newState ≠ .running) :
    Vacant idle cpu (updateThisState idle cpu newState state) := by
  have isRunning := scheduled.current cpu
  have notIdle : ∀ other, state.thisproc cpu ≠ idle other := by
    intro other same
    have equal := scheduled.idleHome other cpu same
    subst equal
    exact away same
  have updated :
      updateThisState idle cpu newState state =
        { state.setState (state.thisproc cpu) newState with
          rq :=
            state.rq.erase (state.thisproc cpu) ++
              if newState.queued then [state.thisproc cpu] else [] } := by
    have leaving :
        state.thisproc cpu ≠ idle cpu ∧
          (state.procs (state.thisproc cpu)).state.queued = true :=
      ⟨away, by rw [isRunning]; rfl⟩
    simp only [updateThisState, if_pos leaving]
    cases isQueued : newState.queued with
    | true => simp [away, State.setState]
    | false => simp [State.setState]
  rw [updated]
  have others :
      ∀ proc, proc ≠ state.thisproc cpu →
        ((state.setState (state.thisproc cpu) newState).procs
            proc).state =
          (state.procs proc).state := by
    intro proc different
    rw [state_setState, if_neg different]
  constructor
  · intro proc procNotIdle
    simp only [List.count_append]
    by_cases same : proc = state.thisproc cpu
    · subst same
      have linked := scheduled.linked _ procNotIdle
      rw [isRunning] at linked
      rw [List.count_erase_self, linked, state_setState, if_pos rfl]
      cases newState.queued <;> simp [ProcState.queued]
    · rw [others proc same, List.count_erase_of_ne same]
      have absent :
          (if newState.queued then [state.thisproc cpu] else []).count
              proc = 0 := by
        apply List.count_eq_zero_of_not_mem
        split_ifs <;> simp [same]
      rw [absent]
      exact scheduled.linked proc procNotIdle
  · intro other different
    have apart : state.thisproc other ≠ state.thisproc cpu :=
      fun same => different (scheduled.single other cpu same)
    exact (others _ apart).trans (scheduled.current other)
  · intro proc nowRunning
    by_cases same : proc = state.thisproc cpu
    · subst same
      simp only [state_setState, if_true] at nowRunning
      exact absurd nowRunning leaves
    · simp only [others proc same] at nowRunning
      rcases scheduled.running proc nowRunning with ⟨other, runs⟩
      refine ⟨other, ?_, runs⟩
      rintro rfl
      exact same runs.symm
  · exact scheduled.single
  · intro other member
    rcases List.mem_append.mp member with early | late
    · exact scheduled.idleUnlinked other (List.mem_of_mem_erase early)
    · split_ifs at late
      · exact notIdle other (List.mem_singleton.mp late).symm
      · cases late
  · intro other idles
    have apart : idle other ≠ state.thisproc cpu := (notIdle other).symm
    refine (others _ apart).trans (scheduled.idleRunnable other ?_)
    rcases idles with rfl | elsewhere
    · exact away
    · exact elsewhere
  · intro other
    exact (killed_setState _ _ _).trans (scheduled.idleAlive other)
  · exact scheduled.idleHome

/-- `pick_next` chooses a runnable process which may run here. -/
theorem Vacant.pickNext_spec
    {cpu : Cpu}
    (distinct : Function.Injective idle)
    (vacant : Vacant idle cpu state)
    (panicFlag : Bool) :
    (state.procs (pickNext idle cpu panicFlag state)).state = .runnable ∧
      ∀ other, pickNext idle cpu panicFlag state = idle other →
        other = cpu := by
  have stays :
      (state.procs (idle cpu)).state = .runnable ∧
        ∀ other, idle cpu = idle other → other = cpu :=
    ⟨vacant.idleRunnable cpu (Or.inl rfl),
      fun _ same => (distinct same).symm⟩
  unfold pickNext
  split_ifs
  · exact stays
  · split
    · rename_i proc found
      refine ⟨by simpa using List.find?_some found, ?_⟩
      rintro other rfl
      exact absurd (List.mem_of_find?_eq_some found)
        (vacant.idleUnlinked other)
    · exact stays

variable [DecidableEq Cpu]

/-- The CPU takes a runnable process. -/
theorem Vacant.dispatch
    {cpu : Cpu}
    (vacant : Vacant idle cpu state)
    {next : Proc}
    (runnable : (state.procs next).state = .runnable)
    (mayRun : ∀ other, next = idle other → other = cpu) :
    Scheduled idle
      ((updateThisProc cpu next state).setState next .running) := by
  have notElsewhere : ∀ other, other ≠ cpu → state.thisproc other ≠ next := by
    rintro other different rfl
    rw [vacant.current other different] at runnable
    cases runnable
  have states :
      ∀ proc,
        (((updateThisProc cpu next state).setState next
            .running).procs proc).state =
          if proc = next then .running else (state.procs proc).state :=
    fun proc => state_setState next proc .running
  have here : Function.update state.thisproc cpu next cpu = next :=
    Function.update_self ..
  have there :
      ∀ other, other ≠ cpu →
        Function.update state.thisproc cpu next other =
          state.thisproc other :=
    fun other different => Function.update_of_ne different _ _
  constructor
  · intro proc notIdle
    rw [states]
    have linked := vacant.linked proc notIdle
    by_cases same : proc = next
    · subst same
      rw [runnable] at linked
      rw [if_pos rfl]
      exact linked
    · rw [if_neg same]
      exact linked
  · intro other
    rw [states]
    change
      (if Function.update state.thisproc cpu next other = next then _
        else _) = ProcState.running
    by_cases same : other = cpu
    · subst same
      rw [if_pos here]
    · rw [there other same, if_neg (notElsewhere other same)]
      change
        (state.procs (Function.update state.thisproc cpu next
          other)).state = .running
      rw [there other same]
      exact vacant.current other same
  · intro proc isRunning
    rw [states] at isRunning
    by_cases same : proc = next
    · subst same
      exact ⟨cpu, here⟩
    · rw [if_neg same] at isRunning
      rcases vacant.running proc isRunning with ⟨other, different, runs⟩
      exact ⟨other, (there other different).trans runs⟩
  · intro left right same
    change
      Function.update state.thisproc cpu next left =
        Function.update state.thisproc cpu next right at same
    by_cases leftHere : left = cpu
    · by_cases rightHere : right = cpu
      · exact leftHere.trans rightHere.symm
      · rw [leftHere, here, there right rightHere] at same
        exact absurd same.symm (notElsewhere right rightHere)
    · by_cases rightHere : right = cpu
      · rw [rightHere, here, there left leftHere] at same
        exact absurd same (notElsewhere left leftHere)
      · rw [there left leftHere, there right rightHere] at same
        exact vacant.single left right same
  · exact vacant.idleUnlinked
  · intro other away
    change Function.update state.thisproc cpu next other ≠ idle other
      at away
    rw [states]
    have different : idle other ≠ next := by
      intro same
      have equal := mayRun other same.symm
      subst equal
      exact away (here.trans same.symm)
    rw [if_neg different]
    apply vacant.idleRunnable
    by_cases same : other = cpu
    · exact Or.inl same
    · rw [there other same] at away
      exact Or.inr away
  · intro other
    exact (killed_setState next _ _).trans (vacant.idleAlive other)
  · intro left right same
    change Function.update state.thisproc cpu next right = idle left at same
    by_cases rightHere : right = cpu
    · rw [rightHere, here] at same
      rw [rightHere]
      exact (mayRun left same).symm
    · rw [there right rightHere] at same
      exact vacant.idleHome left right same

/-- `sched` keeps the invariant, and its assertions hold. -/
theorem Scheduled.sched
    (distinct : Function.Injective idle)
    (scheduled : Scheduled idle state)
    {cpu : Cpu}
    {newState : ProcState}
    (leaves : newState ≠ .running)
    (idles : state.thisproc cpu = idle cpu → newState = .runnable)
    (panicFlag : Bool) :
    ∃ after,
      Sched.sched idle cpu newState panicFlag state = .ok after ∧
        Scheduled idle after := by
  have isRunning := scheduled.current cpu
  unfold Sched.sched
  simp only [isRunning, ne_eq, not_true_eq_false, if_false]
  by_cases early :
      (state.procs (state.thisproc cpu)).killed = true ∧
        ¬ newState = .zombie
  · exact ⟨state, if_pos early, scheduled⟩
  · rw [if_neg early]
    have vacant :
        Vacant idle cpu (updateThisState idle cpu newState state) := by
      by_cases home : state.thisproc cpu = idle cpu
      · rw [idles home]
        exact scheduled.vacate_idle home
      · exact scheduled.vacate home leaves
    rcases vacant.pickNext_spec distinct panicFlag with
      ⟨runnable, mayRun⟩
    have stays :
        ((updateThisProc cpu
              (pickNext idle cpu panicFlag
                (updateThisState idle cpu newState state))
              (updateThisState idle cpu newState state)).procs
            (pickNext idle cpu panicFlag
              (updateThisState idle cpu newState state))).state =
          .runnable :=
      runnable
    rw [if_neg (by simpa using stays)]
    exact ⟨_, rfl, vacant.dispatch runnable mayRun⟩

/-- Every step keeps the invariant and returns. -/
theorem step_keeps
    (distinct : Function.Injective idle)
    (scheduled : Scheduled idle state)
    {label : Label Cpu Proc}
    (allowed : Allowed idle state label) :
    ∃ after, step idle state label = .ok after ∧ Scheduled idle after := by
  cases label with
  | sched cpu newState panicFlag =>
      exact scheduled.sched distinct allowed.1 allowed.2.2 panicFlag
  | activate proc onalert =>
      exact ⟨_, rfl, scheduled.activate proc onalert⟩
  | setKilled proc =>
      refine ⟨_, rfl, scheduled.of_states ?_ ?_ rfl rfl⟩
      · intro other
        left
        by_cases same : other = proc
        · subst same
          simp
        · simp [same]
      · intro cpu
        simp only [Function.update_of_ne (allowed cpu).symm]
        exact scheduled.idleAlive cpu
  | create proc =>
      have out : (state.procs proc).state.queued = false := by
        rcases allowed with unused | zombie
        · rw [unused]
          rfl
        · rw [zombie]
          rfl
      refine ⟨_, rfl, scheduled.of_states ?_ ?_ rfl rfl⟩
      · intro other
        by_cases same : other = proc
        · subst same
          right
          exact ⟨by simp [ProcState.queued], out⟩
        · left
          simp [same]
      · intro cpu
        by_cases same : idle cpu = proc
        · simp [same]
        · simp only [Function.update_of_ne same]
          exact scheduled.idleAlive cpu

/--
The scheduler invariant holds in every run, so neither assertion of `sched`
fails and no process runs on two CPUs.
-/
theorem scheduler_invariant
    {start finish : State Cpu Proc}
    {labels : List (Label Cpu Proc)}
    (initial : Initial idle start)
    (run : Run (Takes (step idle)) (Allowed idle) start labels finish) :
    Scheduled idle finish ∧
      ∀ label, Allowed idle finish label →
        ∃ after, step idle finish label = .ok after := by
  have scheduled : Scheduled idle finish := by
    refine run.invariant initial.scheduled ?_
    intro source label target scheduled allowed taken
    rcases step_keeps initial.distinct scheduled allowed with
      ⟨after, returned, kept⟩
    unfold Takes at taken
    rw [taken] at returned
    cases returned
    exact kept
  refine ⟨scheduled, ?_⟩
  intro label allowed
  rcases step_keeps initial.distinct scheduled allowed with
    ⟨after, returned, -⟩
  exact ⟨after, returned⟩

omit [DecidableEq Cpu] in
instance [Fintype Cpu] (label : Label Cpu Proc) :
    Decidable (Allowed idle state label) :=
  match label with
  | .sched _ _ _ => inferInstanceAs (Decidable (_ ∧ _ ∧ (_ → _)))
  | .activate _ _ => isTrue trivial
  | .setKilled _ => inferInstanceAs (Decidable (∀ _, _))
  | .create _ => inferInstanceAs (Decidable (_ ∨ _))

end Invariant

/-- The idle processes of two CPUs. -/
def firstTwo : Fin 2 → Fin 4 :=
  Fin.castLE (by decide)

/-- Two CPUs with the idle processes 0 and 1. -/
def twoCpus : State (Fin 2) (Fin 4) where
  procs := fun proc =>
    ⟨false, if proc.val < 2 then .running else .unused⟩
  rq := []
  thisproc := firstTwo

/-- Two processes start; one sleeps, is killed and is alerted. -/
def startAndKill : List (Label (Fin 2) (Fin 4)) :=
  [.create 2, .activate 2 false, .activate 3 false,
    .sched 0 .runnable false, .sched 1 .runnable false,
    .sched 0 .sleeping false, .setKilled 3, .activate 3 true]

theorem scheduler_invariant_two_cpus :
    ∃ state : State (Fin 2) (Fin 4),
      Run (Takes (step firstTwo)) (Allowed firstTwo) twoCpus startAndKill
          state ∧
        state.rq = [3, 2] ∧
        Scheduled firstTwo state := by
  have computed :
      ((executeChecked (step firstTwo)
        (fun state label =>
          decide (Allowed firstTwo state label))
        twoCpus startAndKill).map fun state => state.rq) =
          some [3, 2] := by
    decide +kernel
  rcases Option.map_eq_some_iff.mp computed with ⟨state, executed, queue⟩
  have run :
      Run (Takes (step firstTwo))
        (Allowed firstTwo) twoCpus startAndKill state :=
    Run.of_executeChecked (fun _ _ => of_decide_eq_true) executed
  have initial : Initial firstTwo twoCpus := by
    refine ⟨?_, ?_, ?_, rfl, rfl⟩ <;> decide
  exact ⟨state, run, queue, (scheduler_invariant initial run).1⟩

end FudanOS.Kernel.Sched
