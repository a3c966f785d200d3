import FudanOS.Kernel.Sem
import FudanOS.Kernel.KillSafety

/-!
# The process tree

`create_proc`, `set_parent_to_this`, `start_proc`, `fork`, `wait`, `exit` and
`kill` of `kernel/proc.c`, cut where another CPU may come in between: a step is
a section under `plock`, a section under `sched_lock` or an operation on a
semaphore.  `exit` keeps `plock` while it posts, so its sections are steps of
the holder of `plock`.

A process is named by its address, and `wait` frees the address for another
`create_proc`.  `kill` uses the pointer it found after it has released `plock`;
its two writes may therefore hit any address at any time.
-/

namespace FudanOS.Kernel.ProcTree

open FudanOS.Library.Runs
open FudanOS.Kernel.Sem
open FudanOS.Kernel.Sched
open FudanOS.Kernel.KillSafety

/-- `PIDManager` -/
structure PidManager where
  maxPid : Nat
  freepid : List Nat

/-- `get_pid(manager)` -/
def getPid (manager : PidManager) : Nat × PidManager :=
  match manager.freepid with
  | [] =>
      (manager.maxPid + 1, { manager with maxPid := manager.maxPid + 1 })
  | pid :: rest => (pid, { manager with freepid := rest })

/-- `reuse_pid(manager, pid)` -/
def reusePid (pid : Nat) (manager : PidManager) : PidManager :=
  { manager with freepid := pid :: manager.freepid }

/-- Where a process is in `wait` or `exit`. -/
inductive Phase where
  /-- In neither. -/
  | user
  /-- `wait` has found a child, and comes to `wait_sem`. -/
  | checked
  /-- `wait_sem` sleeps or has slept, with `wait->up`. -/
  | waiting (up : Bool)
  /-- `wait_sem` has returned `true`. -/
  | reaping
  /-- `exit` has that many posts to `root_proc` before it. -/
  | exiting (times : Nat)
  /-- `exit` has posted to its parent. -/
  | posted
  /-- `sched(ZOMBIE)` -/
  | gone
  deriving DecidableEq

/-- What has happened, for the statements only. -/
inductive Event (Proc : Type) where
  | exited (proc : Proc) (pid : Nat) (exitcode : Int)
  | reaped (proc : Proc) (pid : Nat) (exitcode : Int)

/-- What a step of `wait` gives back to its caller. -/
inductive Outcome (Proc : Type) where
  | nothing
  /-- `return -1;` -/
  | failed
  /-- `return ret_pid;` with `*exitcode`. -/
  | reaped (child : Proc) (pid : Nat) (exitcode : Int)
  deriving DecidableEq

/-- The processes and what `plock` guards. -/
structure State (Proc : Type) where
  /-- The address is between `init_proc` and `kfree`. -/
  used : Proc → Bool
  pid : Proc → Nat
  exitcode : Proc → Int
  info : Proc → ProcInfo
  parent : Proc → Option Proc
  children : Proc → List Proc
  childexit : Proc → Semaphore Proc
  pmanager : PidManager
  /-- The process whose `exit` holds `plock`. -/
  plock : Option Proc
  phase : Proc → Phase
  /-- `start_proc` has released `plock`. -/
  started : Proc → Bool
  /-- Calls of `start_proc` which come to `activate_proc`. -/
  starting : Proc → Nat
  /-- `kill` has written to the process, for the statements only. -/
  hit : Proc → Bool
  history : List (Event Proc)

inductive Label (Proc : Type) where
  | create (proc : Proc)
  /-- `set_parent_to_this(proc)` by `this`, also as `fork` does it. -/
  | setParent (this proc : Proc)
  /-- `start_proc(proc, ..)` under `plock`. -/
  | start (proc : Proc)
  /-- `activate_proc(proc)` at the end of `start_proc`. -/
  | activate (proc : Proc)
  /-- `wait` until it has looked for a child. -/
  | waitCheck (this : Proc)
  /-- `wait_sem` until it returns or sleeps. -/
  | waitSleep (this : Proc)
  /-- `wait_sem` after it has slept. -/
  | waitResume (this : Proc)
  /-- The rest of `wait`. -/
  | waitReap (this : Proc)
  /-- `exit(code)` up to the first `release_sched_lock`. -/
  | exitBegin (this : Proc) (code : Int)
  /-- `post_sem(&root_proc.childexit)` -/
  | exitPostRoot (this : Proc)
  /-- `post_sem(&thisproc()->parent->childexit)` -/
  | exitPostParent (this : Proc)
  /-- `exit` from its last `acquire_sched_lock` on. -/
  | exitEnd (this : Proc)
  /-- `tokill->killed = 1` -/
  | setKilled (proc : Proc)
  /-- `alert_proc(tokill)` -/
  | alert (proc : Proc)

section Steps

variable
    {Proc : Type}
    [DecidableEq Proc]

/-- `init_proc(p)` -/
def createProc (proc : Proc) (state : State Proc) : State Proc :=
  { state with
    used := Function.update state.used proc true
    pid := Function.update state.pid proc (getPid state.pmanager).1
    exitcode := Function.update state.exitcode proc 0
    info := Function.update state.info proc ⟨false, .unused⟩
    parent := Function.update state.parent proc none
    children := Function.update state.children proc []
    childexit := Function.update state.childexit proc (initSem 0)
    pmanager := (getPid state.pmanager).2
    phase := Function.update state.phase proc .user
    started := Function.update state.started proc false
    -- An `activate_proc` for the last process at this address is still to
    -- come only when a `kill` has activated that process in its place.
    hit :=
      Function.update state.hit proc (decide (0 < state.starting proc)) }

/-- `set_parent_to_this(proc)` -/
def setParentToThis (this proc : Proc) (state : State Proc) : State Proc :=
  { state with
    parent := Function.update state.parent proc (some this)
    children :=
      Function.update state.children this (proc :: state.children this) }

/-- `start_proc` until it releases `plock`. -/
def startProc (root proc : Proc) (state : State Proc) : State Proc :=
  let placed :=
    match state.parent proc with
    | none => setParentToThis root proc state
    | some _ => state
  { placed with
    started := Function.update placed.started proc true
    starting :=
      Function.update placed.starting proc (placed.starting proc + 1) }

/-- The rest of `start_proc`. -/
def finishStart (proc : Proc) (state : State Proc) : State Proc :=
  { state with
    info :=
      Function.update state.info proc (activated false (state.info proc))
    starting :=
      Function.update state.starting proc (state.starting proc - 1) }

def waitCheck (this : Proc) (state : State Proc) :
    Outcome Proc × State Proc :=
  match state.children this with
  | [] => (.failed, state)
  | _ :: _ =>
      (.nothing,
        { state with phase := Function.update state.phase this .checked })

def waitSleep (this : Proc) (state : State Proc) :
    Except Stop (State Proc) :=
  match waitSem this (state.childexit this) with
  | .error stop => .error stop
  | .ok (true, after) =>
      .ok
        { state with
          childexit := Function.update state.childexit this after
          phase := Function.update state.phase this .reaping }
  | .ok (false, after) =>
      .ok
        { state with
          info :=
            Function.update state.info this
              (slept .alertable (state.info this))
          childexit := Function.update state.childexit this after
          phase := Function.update state.phase this (.waiting false) }

def waitResume (this : Proc) (state : State Proc) :
    Except Stop (Outcome Proc × State Proc) :=
  let up := decide (state.phase this = .waiting true)
  match resumeSem this up (state.childexit this) with
  | .error stop => .error stop
  | .ok after =>
      .ok
        (if up then .nothing else .failed,
          { state with
            childexit := Function.update state.childexit this after
            phase :=
              Function.update state.phase this
                (if up then .reaping else .user) })

/-- The first child which is a zombie. -/
def findZombie (this : Proc) (state : State Proc) : Option Proc :=
  (state.children this).find? fun child =>
    decide ((state.info child).state = .zombie)

def waitReap (this : Proc) (state : State Proc) :
    Outcome Proc × State Proc :=
  match findZombie this state with
  | none =>
      (.failed,
        { state with phase := Function.update state.phase this .user })
  | some child =>
      (.reaped child (state.pid child) (state.exitcode child),
        { state with
          used := Function.update state.used child false
          children :=
            Function.update state.children this
              ((state.children this).erase child)
          pmanager := reusePid (state.pid child) state.pmanager
          phase := Function.update state.phase this .user
          history :=
            .reaped child (state.pid child) (state.exitcode child) ::
              state.history })

/-- `times` of `exit` -/
def zombies (this : Proc) (state : State Proc) : Nat :=
  (state.children this).countP fun child =>
    decide ((state.info child).state = .zombie)

def exitBegin (root this : Proc) (code : Int) (state : State Proc) :
    State Proc :=
  { state with
    exitcode := Function.update state.exitcode this code
    parent := fun proc =>
      if proc ∈ state.children this then some root else state.parent proc
    children :=
      Function.update
        (Function.update state.children root
          (state.children this ++ state.children root))
        this []
    plock := some this
    phase :=
      Function.update state.phase this (.exiting (zombies this state))
    history := .exited this (state.pid this) code :: state.history }

/-- `wait->up = true; activate_proc(wait->proc);` -/
def wake (proc : Proc) (state : State Proc) : State Proc :=
  { state with
    info :=
      Function.update state.info proc (activated false (state.info proc))
    phase := Function.update state.phase proc (.waiting true) }

/-- `post_sem(&proc->childexit)` -/
def postChildexit (proc : Proc) (state : State Proc) :
    Except Stop (State Proc) :=
  match postSem (state.childexit proc) with
  | .error stop => .error stop
  | .ok (after, none) =>
      .ok
        { state with
          childexit := Function.update state.childexit proc after }
  | .ok (after, some sleeper) =>
      .ok
        { wake sleeper state with
          childexit := Function.update state.childexit proc after }

def setPhase (proc : Proc) (phase : Phase) (state : State Proc) :
    State Proc :=
  { state with phase := Function.update state.phase proc phase }

def exitPostRoot (root this : Proc) (state : State Proc) :
    Except Stop (State Proc) :=
  match state.phase this with
  | .exiting (times + 1) =>
      postChildexit root (setPhase this (.exiting times) state)
  | _ => .ok state

def exitPostParent (this : Proc) (state : State Proc) :
    Except Stop (State Proc) :=
  match state.parent this with
  | none => .error .assertion
  | some parent => postChildexit parent (setPhase this .posted state)

def exitEnd (this : Proc) (state : State Proc) : State Proc :=
  { state with
    info :=
      Function.update state.info this
        { state.info this with state := .zombie }
    plock := none
    phase := Function.update state.phase this .gone }

def setKilled (proc : Proc) (state : State Proc) : State Proc :=
  { state with
    info :=
      Function.update state.info proc
        { state.info proc with killed := true }
    hit := Function.update state.hit proc true }

def alert (proc : Proc) (state : State Proc) : State Proc :=
  { state with
    info :=
      Function.update state.info proc (activated true (state.info proc))
    hit := Function.update state.hit proc true }

/-- A step at which no `wait` returns. -/
def goesOn (result : Except Stop (State Proc)) :
    Except Stop (Outcome Proc × State Proc) :=
  result.map fun after => (.nothing, after)

/-- One step, with what `wait` gives back. -/
def perform (root : Proc) (state : State Proc) :
    Label Proc → Except Stop (Outcome Proc × State Proc)
  | .create proc => .ok (.nothing, createProc proc state)
  | .setParent this proc => .ok (.nothing, setParentToThis this proc state)
  | .start proc => .ok (.nothing, startProc root proc state)
  | .activate proc => .ok (.nothing, finishStart proc state)
  | .waitCheck this => .ok (waitCheck this state)
  | .waitSleep this => goesOn (waitSleep this state)
  | .waitResume this => waitResume this state
  | .waitReap this => .ok (waitReap this state)
  | .exitBegin this code => .ok (.nothing, exitBegin root this code state)
  | .exitPostRoot this => goesOn (exitPostRoot root this state)
  | .exitPostParent this => goesOn (exitPostParent this state)
  | .exitEnd this => .ok (.nothing, exitEnd this state)
  | .setKilled proc => .ok (.nothing, setKilled proc state)
  | .alert proc => .ok (.nothing, alert proc state)

/-- One step. -/
def step (root : Proc) (state : State Proc) (label : Label Proc) :
    Except Stop (State Proc) :=
  (perform root state label).map Prod.snd

/-- The process is on a CPU or may get one. -/
def Runs (state : State Proc) (proc : Proc) : Prop :=
  state.used proc = true ∧ state.started proc = true ∧
    (state.info proc).state.queued = true

/-- The process runs and is at that point. -/
def At (state : State Proc) (proc : Proc) (phase : Phase) : Prop :=
  Runs state proc ∧ state.phase proc = phase

/-- The process was made by `create_proc` and not started. -/
def Unstarted (root : Proc) (state : State Proc) (proc : Proc) : Prop :=
  state.used proc = true ∧ state.started proc = false ∧ proc ≠ root

/--
A process takes its own steps in their order, a section under `plock` waits
until `plock` is free, and a process is started once.  As its comment says,
`set_parent_to_this` gets a process without a parent.  `root_proc` runs
`kernel_entry`, which does not return and does not call `exit`.
-/
def Allowed (root : Proc) (state : State Proc) : Label Proc → Prop
  | .create proc =>
      state.plock = none ∧ state.used proc = false ∧ proc ≠ root
  | .setParent this proc =>
      state.plock = none ∧ At state this .user ∧
        Unstarted root state proc ∧ state.parent proc = none
  | .start proc => state.plock = none ∧ Unstarted root state proc
  | .activate proc => 0 < state.starting proc
  | .waitCheck this => state.plock = none ∧ At state this .user
  | .waitSleep this => At state this .checked
  | .waitResume this =>
      Runs state this ∧ ∃ up, state.phase this = .waiting up
  | .waitReap this => state.plock = none ∧ At state this .reaping
  | .exitBegin this _ =>
      state.plock = none ∧ At state this .user ∧ this ≠ root
  | .exitPostRoot this =>
      Runs state this ∧ ∃ times, state.phase this = .exiting (times + 1)
  | .exitPostParent this => At state this (.exiting 0)
  | .exitEnd this => At state this .posted
  | .setKilled _ => True
  | .alert _ => True

/-- `init_kproc` has started `root_proc`, and there is no other process. -/
structure Initial (root : Proc) (state : State Proc) : Prop where
  used : ∀ proc, state.used proc = decide (proc = root)
  parent : state.parent root = some root
  children : ∀ proc, state.children proc = []
  childexit : state.childexit root = initSem 0
  phase : state.phase root = .user
  queued : (state.info root).state.queued = true
  alive : (state.info root).killed = false
  plock : state.plock = none
  started : state.started root = true
  starting : ∀ proc, state.starting proc = 0
  history : state.history = []

end Steps

/-! ## Tokens and events -/

namespace Phase

/-- A process which does not exit. -/
def live : Phase → Bool
  | .exiting _ => false
  | .posted => false
  | .gone => false
  | _ => true

/-- `exit` holds `plock`. -/
def locks : Phase → Bool
  | .exiting _ => true
  | .posted => true
  | _ => false

/-- The parent, or `root_proc` after it, was promised a token. -/
def due : Phase → Bool
  | .posted => true
  | .gone => true
  | _ => false

/-- Tokens which `wait_sem` has taken for a `wait` under way. -/
def held : Phase → Nat
  | .waiting true => 1
  | .reaping => 1
  | _ => 0

/-- Posts to `root_proc` which `exit` has before it. -/
def remaining : Phase → Nat
  | .exiting times => times
  | _ => 0

end Phase

section Accounts

variable
    {Proc : Type}
    [DecidableEq Proc]

/-- The children of a process which have exited and are not reaped. -/
def dueChildren (children : Proc → List Proc) (phase : Proc → Phase)
    (proc : Proc) : Nat :=
  (children proc).countP fun child => (phase child).due

/-- The tokens in `childexit`, and the one which `wait` has taken. -/
def credit (childexit : Proc → Semaphore Proc) (phase : Proc → Phase)
    (proc : Proc) : Nat :=
  (childexit proc).val.toNat + (phase proc).held

/-- The tokens which the holder of `plock` still posts to `root_proc`. -/
def owed (root : Proc) (phase : Proc → Phase) (plock : Option Proc)
    (proc : Proc) : Nat :=
  if proc = root then plock.elim 0 fun holder => (phase holder).remaining
  else 0

/-- The pid and the exit code of a process which was not reaped yet. -/
def pending : List (Event Proc) → Proc → Option (Nat × Int)
  | [], _ => none
  | .exited proc pid code :: rest, other =>
      if other = proc then some (pid, code) else pending rest other
  | .reaped proc _ _ :: rest, other =>
      if other = proc then none else pending rest other

/--
Each reaping, the newest event first, is of a process which has exited and
was not reaped since, with the pid and the exit code of that exit.
-/
def Matched : List (Event Proc) → Prop
  | [] => True
  | .exited proc _ _ :: rest => pending rest proc = none ∧ Matched rest
  | .reaped proc pid code :: rest =>
      pending rest proc = some (pid, code) ∧ Matched rest

end Accounts

end FudanOS.Kernel.ProcTree
