import FudanOS.Kernel.Console
import FudanOS.Kernel.Pids
import FudanOS.Kernel.SemRuns
import Mathlib.Data.BitVec

/-!
# Ctrl-C

`console_intr` of `kernel/console.c` on whatever the interrupted CPU runs: a
process in user mode or in the loop of `kernel_entry`, or an idle process.
`kill` searches the process tree for the pid of the current process; nothing
writes the pid of an idle process, which lies in memory from `kalloc`.

The tree changes by the steps of `ProcTree`, those of other calls of `kill`
among them.
-/

namespace FudanOS.Kernel.ConsoleKill

open FudanOS.Library.Runs
open FudanOS.Library.TreeSearch
open FudanOS.Kernel.Sem
open FudanOS.Kernel.Sched
open FudanOS.Kernel.KillSafety
open FudanOS.Kernel.ProcTree
open FudanOS.Kernel.Pids

/-! ## The tree, whatever `kill` does -/

/-- The pids are unique, and each started process is below `root_proc`. -/
structure Rooted
    {Proc : Type}
    [DecidableEq Proc]
    (root : Proc)
    (state : ProcTree.State Proc) : Prop where
  consistent : Consistent root state
  numbered : Numbered state.used state.pid state.pmanager
  started : state.started root = true
  parents :
    ∀ proc other, state.used proc = true →
      state.parent proc = some other → state.started other = true
  ranked : Ranked root state.used state.parent

section Tree

variable
    {Proc : Type}
    [DecidableEq Proc]
    {root this proc : Proc}
    {state after : ProcTree.State Proc}

theorem Rooted.same
    (rooted : Rooted root state)
    (consistent : Consistent root after)
    (same : SameTree state after) :
    Rooted root after := by
  rcases same with ⟨used, pid, pmanager, parent, started, _, _, _⟩
  refine ⟨consistent, ?_, ?_, ?_, ?_⟩
  · rw [used, pid, pmanager]
    exact rooted.numbered
  · rw [started]
    exact rooted.started
  · rw [used, parent, started]
    exact rooted.parents
  · rw [used, parent]
    exact rooted.ranked

theorem Rooted.setParent
    (rooted : Rooted root state)
    (consistent :
      Consistent root (ProcTree.setParentToThis this proc state))
    (isStarted : state.started this = true)
    (unstarted : state.started proc = false) :
    Rooted root (ProcTree.setParentToThis this proc state) :=
  ⟨consistent, rooted.numbered, rooted.started,
    parents_attach rooted.parents isStarted,
    rooted.ranked.attach rooted.parents isStarted rooted.started unstarted⟩

theorem Rooted.start
    (rooted : Rooted root state)
    (unstarted : Unstarted root state proc) :
    Rooted root (ProcTree.startProc root proc state) := by
  have consistent := rooted.consistent.startProc unstarted
  have marked :
      ∀ other, state.started other = true →
        Function.update state.started proc true other = true := by
    intro other isStarted
    by_cases same : other = proc
    · rw [same, Function.update_self]
    · rw [Function.update_of_ne same]
      exact isStarted
  unfold ProcTree.startProc at consistent ⊢
  cases orphan : state.parent proc with
  | none =>
      rw [orphan] at consistent
      refine ⟨consistent, rooted.numbered, marked root rooted.started, ?_,
        rooted.ranked.attach rooted.parents rooted.started rooted.started
          unstarted.2.1⟩
      intro child other isUsed isParent
      exact marked other
        (parents_attach rooted.parents rooted.started child other isUsed
          isParent)
  | some other =>
      rw [orphan] at consistent
      refine ⟨consistent, rooted.numbered, marked root rooted.started, ?_,
        rooted.ranked⟩
      intro child other isUsed isParent
      exact marked other (rooted.parents child other isUsed isParent)

theorem Rooted.create
    (rooted : Rooted root state)
    (free : state.plock = none)
    (unused : state.used proc = false)
    (notRoot : proc ≠ root) :
    Rooted root (ProcTree.createProc proc state) := by
  refine ⟨rooted.consistent.createProc free unused notRoot,
    rooted.numbered.create unused, ?_, ?_, rooted.ranked.create⟩
  · change Function.update state.started proc false root = true
    rw [Function.update_of_ne (Ne.symm notRoot)]
    exact rooted.started
  · apply parents_create rooted.parents
    rintro child other isUsed isParent rfl
    have living :=
      rooted.consistent.living.parents child other isUsed isParent
    rw [unused] at living
    cases living.1

theorem Rooted.reap
    (rooted : Rooted root state)
    (free : state.plock = none)
    (at_ : At state this .reaping) :
    Rooted root (ProcTree.waitReap this state).2 := by
  have linked := rooted.consistent.linked
  rcases rooted.consistent.waitReap free at_ with
    ⟨_, _, _, _, consistent⟩
  rcases rooted.consistent.findZombie free at_ with
    ⟨child, found, member, -⟩
  have isUsed := ((linked.member child this).mp member).1
  have old :
      ∀ other, Function.update state.used child false other = true →
        state.used other = true := by
    intro other otherUsed
    by_cases same : other = child
    · rw [same, Function.update_self] at otherUsed
      cases otherUsed
    · rwa [Function.update_of_ne same] at otherUsed
  unfold ProcTree.waitReap at consistent ⊢
  rw [found] at consistent ⊢
  refine ⟨consistent, rooted.numbered.reap isUsed, rooted.started, ?_,
    rooted.ranked.mono old⟩
  exact fun other parent otherUsed =>
    rooted.parents other parent (old other otherUsed)

theorem Rooted.exitBegin
    (rooted : Rooted root state)
    {code : Int}
    (consistent :
      Consistent root (ProcTree.exitBegin root this code state)) :
    Rooted root (ProcTree.exitBegin root this code state) := by
  have linked := rooted.consistent.linked
  refine ⟨consistent, rooted.numbered, rooted.started, ?_,
    rooted.ranked.handOn fun child member =>
      ((linked.member child this).mp member).2.2⟩
  intro child other isUsed isParent
  change (if child ∈ state.children this then some root
    else state.parent child) = some other at isParent
  split_ifs at isParent with member
  · cases isParent
    exact rooted.started
  · exact rooted.parents child other isUsed isParent

theorem Rooted.kill
    (rooted : Rooted root state)
    (proc : Proc) :
    Rooted root (setKilled proc state) ∧ Rooted root (alert proc state) :=
  ⟨⟨rooted.consistent.setKilled proc, rooted.numbered, rooted.started,
      rooted.parents, rooted.ranked⟩,
    ⟨rooted.consistent.alert proc, rooted.numbered, rooted.started,
      rooted.parents, rooted.ranked⟩⟩

/-- Every step keeps the tree. -/
theorem step_rooted
    (rooted : Rooted root state)
    {label : ProcTree.Label Proc}
    (allowed : ProcTree.Allowed root state label)
    (taken : ProcTree.step root state label = .ok after) :
    Rooted root after := by
  have performed :
      ∃ outcome, perform root state label = .ok (outcome, after) := by
    unfold ProcTree.step at taken
    cases done : perform root state label with
    | error stop =>
        rw [done] at taken
        cases taken
    | ok result =>
        rw [done] at taken
        cases taken
        exact ⟨result.1, rfl⟩
  rcases performed with ⟨outcome, performed⟩
  have consistent : Consistent root after := by
    rcases perform_keeps rooted.consistent allowed with
      stopped | ⟨other, target, done, kept⟩
    · rw [stopped] at performed
      cases performed
    · rw [done] at performed
      cases performed
      exact kept
  have quietly :
      ∀ {result : Except Stop (ProcTree.State Proc)},
        goesOn result = .ok (outcome, after) → result = .ok after := by
    intro result goes
    cases result with
    | error stop => cases goes
    | ok target =>
        cases goes
        rfl
  cases label with
  | create proc =>
      cases performed
      exact rooted.create allowed.1 allowed.2.1 allowed.2.2
  | setParent this proc =>
      cases performed
      rcases allowed with ⟨_, ⟨runs, _⟩, unstarted, _⟩
      exact rooted.setParent consistent runs.2.1 unstarted.2.1
  | start proc =>
      cases performed
      exact rooted.start allowed.2
  | activate proc =>
      cases performed
      exact ⟨consistent, rooted.numbered, rooted.started, rooted.parents,
        rooted.ranked⟩
  | waitCheck this =>
      have isAfter : (ProcTree.waitCheck this state).2 = after :=
        congrArg Prod.snd (Except.ok.inj performed)
      rw [← isAfter] at consistent ⊢
      exact rooted.same consistent sameTree_waitCheck
  | waitSleep this =>
      exact rooted.same consistent (sameTree_waitSleep (quietly performed))
  | waitResume this =>
      exact rooted.same consistent (sameTree_waitResume performed)
  | waitReap this =>
      have isAfter : (ProcTree.waitReap this state).2 = after :=
        congrArg Prod.snd (Except.ok.inj performed)
      rw [← isAfter]
      exact rooted.reap allowed.1 allowed.2
  | exitBegin this code =>
      cases performed
      exact rooted.exitBegin consistent
  | exitPostRoot this =>
      exact rooted.same consistent
        (sameTree_exitPostRoot (quietly performed))
  | exitPostParent this =>
      exact rooted.same consistent
        (sameTree_exitPostParent (quietly performed))
  | exitEnd this =>
      cases performed
      exact rooted.same consistent sameTree_exitEnd
  | setKilled proc =>
      cases performed
      exact (rooted.kill proc).1
  | alert proc =>
      cases performed
      exact (rooted.kill proc).2

/-- `find_proc(pid, current)` for any `int`, at most so many calls deep -/
def findProc (state : ProcTree.State Proc) (pid : ℤ) :
    ℕ → Proc → Option (Option Proc) :=
  search
    (fun current =>
      decide ((state.pid current : ℤ) = pid) && !isUnused state current)
    state.children

/-- `find_proc` returns, and it returns a started process with the pid. -/
theorem Rooted.findProc
    (rooted : Rooted root state)
    (pid : ℤ) :
    ∃ enough, ∀ depth, enough ≤ depth →
      ∃ result,
        findProc state pid depth root = some result ∧
          ∀ proc,
            result = some proc ↔
              Below state.children root proc ∧
                (state.pid proc : ℤ) = pid ∧
                isUnused state proc = false := by
  have accepts_iff :
      ∀ proc,
        (decide ((state.pid proc : ℤ) = pid) && !isUnused state proc) =
            true ↔
          (state.pid proc : ℤ) = pid ∧ isUnused state proc = false := by
    intro proc
    rw [Bool.and_eq_true, decide_eq_true_iff, Bool.not_eq_true']
  have unique :
      ∀ left right, state.used left = true → state.used right = true →
        (decide ((state.pid left : ℤ) = pid) && !isUnused state left) =
          true →
        (decide ((state.pid right : ℤ) = pid) && !isUnused state right) =
          true → left = right := by
    intro left right leftUsed rightUsed leftAccepted rightAccepted
    apply rooted.numbered.distinct left right leftUsed rightUsed
    apply Int.ofNat.inj
    exact ((accepts_iff left).mp leftAccepted).1.trans
      ((accepts_iff right).mp rightAccepted).1.symm
  rcases exists_search_root rooted.consistent rooted.ranked unique with
    ⟨enough, searched⟩
  refine ⟨enough, fun depth atLeast => ?_⟩
  rcases searched depth atLeast with ⟨result, found, exactly⟩
  refine ⟨result, found, fun proc => ?_⟩
  rw [exactly proc, accepts_iff]

/-- A process which runs is found by its pid. -/
theorem Rooted.finds
    (rooted : Rooted root state)
    (runs : Runs state this) :
    ∃ enough, ∀ depth, enough ≤ depth →
      ConsoleKill.findProc state (state.pid this) depth root =
        some (some this) := by
  rcases rooted.findProc (state.pid this) with ⟨enough, searched⟩
  refine ⟨enough, fun depth atLeast => ?_⟩
  rcases searched depth atLeast with ⟨result, found, exactly⟩
  have below :=
    below_of_started rooted.consistent rooted.parents rooted.ranked runs.1
      runs.2.1
  have active : isUnused state this = false := by
    apply decide_eq_false
    intro unused
    have queued := runs.2.2
    rw [unused] at queued
    cases queued
  rw [found, (exactly this).mpr ⟨below, rfl, active⟩]

end Tree

/-! ## The console and its interrupts -/

/-- What an interrupted CPU runs. -/
inductive Context (Proc : Type) where
  /-- An idle process, with what lies in memory where its pid is -/
  | idle (pid : ℤ)
  /-- A process at this program counter, in user mode or in its loop -/
  | proc (this : Proc) (user : Bool) (elr : BitVec 64)

/-- The interrupted user process -/
def Context.userProcess {Proc : Type} : Context Proc → Option Proc
  | .proc this true _ => some this
  | _ => none

structure State (Proc : Type) where
  tree : ProcTree.State Proc
  /-- `ucontext->elr` -/
  elr : Proc → BitVec 64
  /-- Whether `cons.lock` is held. -/
  lock : Bool
  /-- The buffer; its `sem` counts the posts. -/
  cons : Console.Cons
  /-- `cons.sem` -/
  sem : SemRuns.State Proc

inductive Label (Proc : Type) where
  | tree (label : ProcTree.Label Proc)
  /-- A process traps. -/
  | trap (this : Proc) (elr : BitVec 64)
  /-- `cons.read_idx++` of `console_read` -/
  | read
  /-- `cons.read_idx--` of `console_read` -/
  | unread
  /-- `unalertable_wait_sem(&cons.sem)` of `console_read` -/
  | sem (label : SemRuns.Label Proc)
  /-- `console_intr(c)`, with a search which is at most so many calls deep -/
  | intr (depth : ℕ) (context : Context Proc) (c : UInt8)

section Steps

variable
    {Proc : Type}
    [DecidableEq Proc]

/-- `thisproc()->ucontext = context` -/
def saveContext (context : Context Proc) (state : State Proc) : State Proc :=
  match context with
  | .idle _ => state
  | .proc this _ elr =>
      { state with elr := Function.update state.elr this elr }

/-- `thisproc()->pid` -/
def currentPid (context : Context Proc) (state : State Proc) : ℤ :=
  match context with
  | .idle pid => pid
  | .proc this _ _ => state.tree.pid this

/-- What `kill` returns, and the process which it marks. -/
structure Killed (Proc : Type) where
  ret : ℤ
  marked : Option Proc
  state : State Proc

/-- `kill(pid)` -/
def kill (root : Proc) (depth : ℕ) (pid : ℤ) (state : State Proc) :
    Except Stop (Killed Proc) :=
  match findProc state.tree pid depth root with
  | none => .error .unfinished
  | some none => .ok ⟨-1, none, state⟩
  | some (some tokill) =>
      if state.elr tokill >>> 48 = 0 then
        .ok
          ⟨0, some tokill,
            { state with tree := alert tokill (setKilled tokill state.tree) }⟩
      else
        .ok ⟨-1, none, state⟩

/-- The character commits bytes, and `console_intr` posts. -/
def Commits (cons : Console.Cons) (c : UInt8) : Prop :=
  (Console.consoleIntr c cons).sem ≠ cons.sem

instance (cons : Console.Cons) (c : UInt8) : Decidable (Commits cons c) :=
  inferInstanceAs (Decidable (_ ≠ _))

/-- `console_intr(c)`, with the process which it marks -/
def consoleIntr (root : Proc) (depth : ℕ) (context : Context Proc)
    (c : UInt8) (state : State Proc) :
    Except Stop (Option Proc × State Proc) :=
  let state := { state with lock := true }
  if c = Console.ctrlC then
    match kill root depth (currentPid context state) state with
    | .error stop => .error stop
    | .ok killed =>
        if killed.ret = 0 then
          .ok (killed.marked, { killed.state with lock := false })
        else
          .error .assertion
  else
    let cons := Console.consoleIntr c state.cons
    if Commits state.cons c then
      match SemRuns.post state.sem with
      | .error stop => .error stop
      | .ok sem =>
          .ok (none, { state with cons := cons, sem := sem, lock := false })
    else
      .ok (none, { state with cons := cons, lock := false })

def step (root : Proc) (state : State Proc) :
    Label Proc → Except Stop (State Proc)
  | .tree label =>
      (ProcTree.step root state.tree label).map fun tree =>
        { state with tree := tree }
  | .trap this elr =>
      .ok { state with elr := Function.update state.elr this elr }
  | .read =>
      .ok
        { state with
          cons :=
            { state.cons with
              readIdx := (state.cons.readIdx + 1) % Console.usizeSize } }
  | .unread =>
      .ok
        { state with
          cons :=
            { state.cons with
              readIdx :=
                (state.cons.readIdx + Console.usizeSize - 1) %
                  Console.usizeSize } }
  | .sem label =>
      (SemRuns.step state.sem label).map fun sem =>
        { state with sem := sem }
  | .intr depth context c =>
      (consoleIntr root depth context c (saveContext context state)).map
        Prod.snd

/-- The steps of a wait -/
def isWait : SemRuns.Label Proc → Bool
  | .wait _ => true
  | .resume _ => true
  | .alert _ => true
  | _ => false

/--
What may be current where interrupts are enabled: a process outside the kernel,
`root_proc` in the loop of `kernel_entry`, which is at a kernel address, or an
idle process.
-/
def Current (state : State Proc) : Context Proc → Prop
  | .idle _ => True
  | .proc this user elr =>
      At state.tree this .user ∧ (user = false → elr >>> 48 ≠ 0)

/-- A search takes `plock`. -/
def Interrupts (state : State Proc) (context : Context Proc) (c : UInt8) :
    Prop :=
  Current state context ∧ (c = Console.ctrlC → state.tree.plock = none)

def Allowed (root : Proc) (state : State Proc) : Label Proc → Prop
  | .tree label => ProcTree.Allowed root state.tree label
  | .trap _ _ => True
  | .read => True
  | .unread => True
  | .sem label => isWait label = true ∧ SemRuns.Allowed state.sem label
  | .intr _ context c => Interrupts state context c

/-- After `init_kproc` and `console_init` -/
structure Booted (root : Proc) (state : State Proc) : Prop where
  tree : Pids.Booted root state.tree
  lock : state.lock = false
  cons : state.cons = Console.initial.cons
  sem : state.sem = SemRuns.State.init 0

/-- What the claim asks of a call which returns. -/
structure Handled
    (root : Proc)
    (depth : ℕ)
    (context : Context Proc)
    (c : UInt8)
    (state : State Proc)
    (marked : Option Proc)
    (after : State Proc) : Prop where
  returned :
    consoleIntr root depth context c (saveContext context state) =
      .ok (marked, after)
  lock : after.lock = false
  marks :
    marked = if c = Console.ctrlC then context.userProcess else none
  killed :
    ∀ proc,
      (after.tree.info proc).killed = true ↔
        (state.tree.info proc).killed = true ∨ marked = some proc
  unmarked : marked = none → after.tree = state.tree

/--
The call returns with the lock released; Ctrl-C marks the interrupted user
process, and there is no other effect on the processes.
-/
def Harmless (root : Proc) (context : Context Proc) (c : UInt8)
    (state : State Proc) : Prop :=
  ∃ enough, ∀ depth, enough ≤ depth →
    ∃ marked after, Handled root depth context c state marked after

/--
Ctrl-C hits a process at a user address; another character does not post to a
semaphore which is full.
-/
def Expected (context : Context Proc) (c : UInt8) (state : State Proc) :
    Prop :=
  if c = Console.ctrlC then
    ∃ this user elr, context = .proc this user elr ∧ elr >>> 48 = 0
  else
    Commits state.cons c → state.sem.sem.val ≠ intMax

end Steps

/-! ## The invariant -/

section Runs

variable
    {Proc : Type}
    [DecidableEq Proc]
    {root this : Proc}
    {context : Context Proc}
    {c : UInt8}
    {start state after finish : State Proc}

/-- What holds between the steps. -/
structure Sound (root : Proc) (state : State Proc) : Prop where
  tree : Rooted root state.tree
  sem : SemRuns.Valid 0 state.sem
  lock : state.lock = false

theorem Booted.sound
    (booted : Booted root start) :
    Sound root start := by
  have named := booted.tree.named
  refine ⟨⟨named.consistent, named.numbered, named.begun.root,
    named.begun.parents, named.ranked⟩, ?_, booted.lock⟩
  rw [booted.sem]
  exact SemRuns.valid_init

/-- The outcomes of `kill` -/
theorem kill_cases
    {depth : ℕ}
    {pid : ℤ}
    {killed : Killed Proc}
    (returned : kill root depth pid state = .ok killed) :
    killed = ⟨-1, none, state⟩ ∨
      ∃ tokill,
        findProc state.tree pid depth root = some (some tokill) ∧
          state.elr tokill >>> 48 = 0 ∧
          killed =
            ⟨0, some tokill,
              { state with
                tree := alert tokill (setKilled tokill state.tree) }⟩ := by
  unfold kill at returned
  cases found : findProc state.tree pid depth root with
  | none =>
      rw [found] at returned
      cases returned
  | some result =>
      rw [found] at returned
      cases result with
      | none =>
          cases returned
          exact Or.inl rfl
      | some tokill =>
          dsimp only at returned
          by_cases user : state.elr tokill >>> 48 = 0
          · rw [if_pos user] at returned
            cases returned
            exact Or.inr ⟨tokill, rfl, user, rfl⟩
          · rw [if_neg user] at returned
            cases returned
            exact Or.inl rfl

/-- Ctrl-C returns when `kill` marks a process. -/
theorem consoleIntr_ctrlC
    {depth : ℕ}
    {marked : Option Proc}
    (returned :
      consoleIntr root depth context Console.ctrlC state =
        .ok (marked, after)) :
    ∃ tokill,
      findProc state.tree (currentPid context state) depth root =
          some (some tokill) ∧
        state.elr tokill >>> 48 = 0 ∧ marked = some tokill ∧
        after =
          { state with
            tree := alert tokill (setKilled tokill state.tree)
            lock := false } := by
  unfold consoleIntr at returned
  dsimp only at returned
  rw [if_pos rfl] at returned
  have pidEq :
      currentPid context { state with lock := true } =
        currentPid context state := by
    cases context <;> rfl
  rw [pidEq] at returned
  cases killing : kill root depth (currentPid context state)
      { state with lock := true } with
  | error stop =>
      rw [killing] at returned
      cases returned
  | ok killed =>
      rw [killing] at returned
      rcases kill_cases killing with rfl | ⟨tokill, found, user, rfl⟩
      · cases returned
      · cases returned
        exact ⟨tokill, found, user, rfl, rfl⟩

/-- Another character marks nothing. -/
theorem consoleIntr_other
    {depth : ℕ}
    {marked : Option Proc}
    (other : c ≠ Console.ctrlC)
    (returned :
      consoleIntr root depth context c state = .ok (marked, after)) :
    marked = none ∧ after.tree = state.tree ∧ after.lock = false ∧
      (after.sem = state.sem ∨ SemRuns.post state.sem = .ok after.sem) := by
  unfold consoleIntr at returned
  dsimp only at returned
  rw [if_neg other] at returned
  by_cases commits : Commits state.cons c
  · rw [if_pos commits] at returned
    cases posting : SemRuns.post state.sem with
    | error stop =>
        rw [posting] at returned
        cases returned
    | ok sem =>
        rw [posting] at returned
        cases returned
        exact ⟨rfl, rfl, rfl, Or.inr rfl⟩
  · rw [if_neg commits] at returned
    cases returned
    exact ⟨rfl, rfl, rfl, Or.inl rfl⟩

theorem saveContext_keeps
    (context : Context Proc)
    (state : State Proc) :
    (saveContext context state).tree = state.tree ∧
      (saveContext context state).lock = state.lock ∧
      (saveContext context state).cons = state.cons ∧
      (saveContext context state).sem = state.sem := by
  cases context <;> exact ⟨rfl, rfl, rfl, rfl⟩

theorem Sound.intr
    (sound : Sound root state)
    {depth : ℕ}
    {marked : Option Proc}
    (returned :
      consoleIntr root depth context c (saveContext context state) =
        .ok (marked, after)) :
    Sound root after := by
  rcases saveContext_keeps context state with ⟨tree, -, -, sem⟩
  by_cases isCtrlC : c = Console.ctrlC
  · subst isCtrlC
    rcases consoleIntr_ctrlC returned with ⟨tokill, -, -, -, rfl⟩
    refine ⟨?_, ?_, rfl⟩
    · dsimp only
      rw [tree]
      exact ((sound.tree.kill tokill).1.kill tokill).2
    · dsimp only
      rw [sem]
      exact sound.sem
  · rcases consoleIntr_other isCtrlC returned with
      ⟨-, sameTree, released, posted⟩
    refine ⟨?_, ?_, released⟩
    · rw [sameTree, tree]
      exact sound.tree
    · rw [sem] at posted
      rcases posted with same | posted
      · rw [same]
        exact sound.sem
      · rcases sound.sem.post_cases with
          ⟨stopped, -⟩ | ⟨other, done, valid, -⟩
        · rw [stopped] at posted
          cases posted
        · rw [done] at posted
          cases posted
          exact valid

/-- Every step keeps the invariant. -/
theorem step_sound
    (sound : Sound root state)
    {label : Label Proc}
    (allowed : Allowed root state label)
    (taken : step root state label = .ok after) :
    Sound root after := by
  cases label with
  | tree label =>
      unfold step at taken
      dsimp only at taken
      cases stepped : ProcTree.step root state.tree label with
      | error stop =>
          rw [stepped] at taken
          cases taken
      | ok tree =>
          rw [stepped] at taken
          cases taken
          exact ⟨step_rooted sound.tree allowed stepped, sound.sem,
            sound.lock⟩
  | trap this elr =>
      cases taken
      exact ⟨sound.tree, sound.sem, sound.lock⟩
  | read =>
      cases taken
      exact ⟨sound.tree, sound.sem, sound.lock⟩
  | unread =>
      cases taken
      exact ⟨sound.tree, sound.sem, sound.lock⟩
  | sem label =>
      have kept := SemRuns.step_keeps sound.sem allowed.2
      unfold step at taken
      dsimp only at taken
      cases stepped : SemRuns.step state.sem label with
      | error stop =>
          rw [stepped] at taken
          cases taken
      | ok sem =>
          rw [stepped] at taken kept
          cases taken
          exact ⟨sound.tree, kept, sound.lock⟩
  | intr depth context c =>
      unfold step at taken
      dsimp only at taken
      cases returned :
          consoleIntr root depth context c (saveContext context state) with
      | error stop =>
          rw [returned] at taken
          cases taken
      | ok result =>
          rcases result with ⟨marked, target⟩
          rw [returned] at taken
          cases taken
          exact sound.intr returned

theorem run_sound
    {labels : List (Label Proc)}
    (booted : Booted root start)
    (run :
      Run (Takes (step root)) (Allowed root) start labels finish) :
    Sound root finish := by
  apply run.invariant booted.sound
  intro source label target sound allowed taken
  exact step_sound sound allowed taken

/-! ## When an interrupt is harmless -/

/-- Another character than Ctrl-C -/
theorem harmless_other
    (sound : Sound root state)
    (other : c ≠ Console.ctrlC) :
    Harmless root context c state ↔
      (Commits state.cons c → state.sem.sem.val ≠ intMax) := by
  rcases saveContext_keeps context state with ⟨tree, -, cons, sem⟩
  constructor
  · rintro ⟨enough, handled⟩ commits full
    rcases handled enough le_rfl with ⟨marked, after, handled⟩
    have returned := handled.returned
    unfold consoleIntr at returned
    dsimp only at returned
    rw [if_neg other, cons, if_pos commits, sem] at returned
    rcases sound.sem.post_cases with
      ⟨stopped, -⟩ | ⟨target, done, valid, value, -⟩
    · rw [stopped] at returned
      cases returned
    · rcases postSem_cases sound.sem.balanced with
        ⟨stopped, -⟩ | ⟨-, -, posted⟩ | ⟨front, thread, negative, -⟩
      · unfold SemRuns.post at done
        rw [stopped] at done
        cases done
      · unfold postSem at posted
        have overflow : increment state.sem.sem.val = .error .overflow := by
          unfold increment
          rw [if_pos full]
        rw [overflow] at posted
        cases posted
      · rw [full] at negative
        exact absurd negative (by decide)
  · intro room
    refine ⟨0, fun depth _ => ?_⟩
    have returns :
        ∃ after,
          consoleIntr root depth context c (saveContext context state) =
            .ok (none, after) := by
      unfold consoleIntr
      dsimp only
      rw [if_neg other, cons, sem]
      by_cases commits : Commits state.cons c
      · rw [if_pos commits]
        rcases sound.sem.post_cases with
          ⟨-, full⟩ | ⟨target, done, -⟩
        · exact absurd full (room commits)
        · rw [done]
          exact ⟨_, rfl⟩
      · rw [if_neg commits]
        exact ⟨_, rfl⟩
    rcases returns with ⟨after, returned⟩
    rcases consoleIntr_other other returned with ⟨-, sameTree, released, -⟩
    rw [tree] at sameTree
    refine ⟨none, after, returned, released, ?_, ?_, fun _ => sameTree⟩
    · rw [if_neg other]
    · intro proc
      rw [sameTree]
      exact (or_iff_left nofun).symm

/-- Ctrl-C -/
theorem harmless_ctrlC
    (sound : Sound root state)
    (current : Current state context) :
    Harmless root context Console.ctrlC state ↔
      ∃ this user elr,
        context = .proc this user elr ∧ elr >>> 48 = 0 := by
  constructor
  · rintro ⟨enough, handled⟩
    cases context with
    | idle pid =>
        rcases handled enough le_rfl with ⟨marked, after, handled⟩
        rcases consoleIntr_ctrlC handled.returned with
          ⟨tokill, -, -, isMarked, -⟩
        have marks := handled.marks
        rw [if_pos rfl, isMarked] at marks
        cases marks
    | proc this user elr =>
        refine ⟨this, user, elr, rfl, ?_⟩
        rcases sound.tree.finds current.1.1 with ⟨deep, found⟩
        rcases handled (max enough deep) (Nat.le_max_left _ _) with
          ⟨marked, after, handled⟩
        rcases consoleIntr_ctrlC handled.returned with
          ⟨tokill, isFound, isUser, -⟩
        have finds := found (max enough deep) (Nat.le_max_right _ _)
        have same : some (some tokill) = some (some this) :=
          isFound.symm.trans finds
        cases same
        change Function.update state.elr this elr this >>> 48 = 0 at isUser
        rwa [Function.update_self] at isUser
  · rintro ⟨this, user, elr, rfl, isUser⟩
    have inUser : user = true := by
      by_contra notUser
      exact current.2 ((Bool.not_eq_true _).mp notUser) isUser
    subst inUser
    rcases sound.tree.finds current.1.1 with ⟨enough, found⟩
    refine ⟨enough, fun depth atLeast => ?_⟩
    have finds := found depth atLeast
    have saved :
        (saveContext (.proc this true elr) state).elr this >>> 48 = 0 := by
      change Function.update state.elr this elr this >>> 48 = 0
      rwa [Function.update_self]
    have kills :
        kill root depth (state.tree.pid this)
            { saveContext (.proc this true elr) state with lock := true } =
          .ok
            ⟨0, some this,
              { saveContext (.proc this true elr) state with
                lock := true
                tree := alert this (setKilled this state.tree) }⟩ := by
      unfold kill
      have sought :
          findProc
              { saveContext (.proc this true elr) state with
                lock := true }.tree
              (state.tree.pid this) depth root = some (some this) :=
        finds
      rw [sought]
      dsimp only
      rw [if_pos saved]
      rfl
    refine ⟨some this,
      { saveContext (.proc this true elr) state with
        tree := alert this (setKilled this state.tree)
        lock := false },
      ?_, rfl, rfl, ?_, nofun⟩
    · unfold consoleIntr
      dsimp only
      rw [if_pos rfl]
      have pidEq :
          currentPid (.proc this true elr)
              { saveContext (.proc this true elr) state with lock := true } =
            state.tree.pid this :=
        rfl
      rw [pidEq, kills]
      dsimp only
      rw [if_pos rfl]
    · intro proc
      change
        (Function.update
            (Function.update state.tree.info this
              { state.tree.info this with killed := true })
            this _ proc).killed = true ↔ _
      by_cases same : proc = this
      · subst same
        rw [Function.update_self, activated_killed]
        change
          (Function.update state.tree.info proc _ proc).killed = true ↔ _
        rw [Function.update_self]
        exact iff_of_true rfl (Or.inr rfl)
      · rw [Function.update_of_ne same, Function.update_of_ne same]
        refine (or_iff_left ?_).symm
        intro marked
        exact same (Option.some.inj marked).symm

/--
In every state which can be reached, and whatever is current, the handler does
what is asked of it exactly if Ctrl-C hits a process at a user address, or the
character is another one and the semaphore is not full when it posts.
-/
theorem console_intr_iff
    {labels : List (Label Proc)}
    (booted : Booted root start)
    (run :
      Run (Takes (step root)) (Allowed root) start labels finish)
    (interrupts : Interrupts finish context c) :
    Harmless root context c finish ↔ Expected context c finish := by
  have sound := run_sound booted run
  unfold Expected
  by_cases isCtrlC : c = Console.ctrlC
  · subst isCtrlC
    rw [if_pos rfl]
    exact harmless_ctrlC sound interrupts.1
  · rw [if_neg isCtrlC]
    exact harmless_other sound isCtrlC

end Runs

/-! ## Nobody to kill -/

instance
    {Proc : Type}
    [DecidableEq Proc]
    (state : State Proc)
    (context : Context Proc) :
    Decidable (Current state context) :=
  match context with
  | .idle _ => inferInstanceAs (Decidable True)
  | .proc _ _ _ => inferInstanceAs (Decidable (_ ∧ _))

instance
    {Proc : Type}
    [DecidableEq Proc]
    (state : State Proc)
    (context : Context Proc)
    (c : UInt8) :
    Decidable (Interrupts state context c) :=
  inferInstanceAs (Decidable (_ ∧ _))

instance
    {Proc : Type}
    [DecidableEq Proc]
    (root : Proc)
    (state : State Proc)
    (label : Label Proc) :
    Decidable (Allowed root state label) :=
  match label with
  | .tree label =>
      inferInstanceAs (Decidable (ProcTree.Allowed root state.tree label))
  | .trap _ _ => inferInstanceAs (Decidable True)
  | .read => inferInstanceAs (Decidable True)
  | .unread => inferInstanceAs (Decidable True)
  | .sem label =>
      inferInstanceAs
        (Decidable (_ ∧ SemRuns.Allowed state.sem label))
  | .intr _ context c =>
      inferInstanceAs (Decidable (Interrupts state context c))

/-- The console after the start, with `root_proc` only. -/
def startState : State (Fin 3) where
  tree := onlyRoot
  elr := fun _ => 0
  lock := false
  cons := Console.initial.cons
  sem := SemRuns.State.init 0

theorem booted_startState : Booted 0 startState :=
  ⟨booted_onlyRoot, rfl, rfl, rfl⟩

/-- `init` is started, and a line is typed while it runs. -/
def initAndLine : List (Label (Fin 3)) :=
  [.tree (.create 1), .tree (.setParent 0 1), .tree (.start 1),
    .tree (.activate 1), .intr 3 (.proc 1 true 0x400000) 97,
    .intr 3 (.idle 0) 10]

/-- Ctrl-C marks the process, which then runs at `0x400004`. -/
theorem console_intr_initAndLine :
    ∃ state,
      Run (Takes (step 0)) (Allowed 0) startState initAndLine state ∧
        Harmless 0 (.proc 1 true 0x400004) Console.ctrlC state := by
  have computed :
      ((executeChecked (step 0)
        (fun state label => decide (Allowed 0 state label))
        startState initAndLine).map fun state =>
          decide
            (Interrupts state (.proc 1 true 0x400004) Console.ctrlC)) =
        some true := by
    decide +kernel
  rcases Option.map_eq_some_iff.mp computed with ⟨state, executed, facts⟩
  have run :
      Run (Takes (step 0)) (Allowed 0) startState initAndLine state :=
    Run.of_executeChecked (fun _ _ => of_decide_eq_true) executed
  refine ⟨state, run, ?_⟩
  apply (console_intr_iff booted_startState run (of_decide_eq_true facts)).mpr
  unfold Expected
  rw [if_pos rfl]
  exact ⟨1, true, 0x400004, rfl, by decide⟩

/--
Before any process is made, Ctrl-C comes while a CPU is idle, with a 0 where
the pid is, or while `root_proc` waits: the assertion fails.
-/
theorem ctrlC_panics :
    Interrupts startState (.idle 0) Console.ctrlC ∧
      Interrupts startState (.proc 0 false 0xFFFF000040080000)
        Console.ctrlC ∧
      consoleIntr 0 2 (.idle 0) Console.ctrlC startState =
        .error .assertion ∧
      ¬ Harmless 0 (.idle 0) Console.ctrlC startState ∧
      ¬ Harmless 0 (.proc 0 false 0xFFFF000040080000) Console.ctrlC
        startState := by
  have sound := booted_startState.sound
  have isIdle : Interrupts startState (.idle 0) Console.ctrlC := by
    decide
  have isRoot :
      Interrupts startState (.proc 0 false 0xFFFF000040080000)
        Console.ctrlC := by
    decide
  refine ⟨isIdle, isRoot, rfl, ?_, ?_⟩
  · rw [harmless_ctrlC sound isIdle.1]
    rintro ⟨this, user, elr, impossible, -⟩
    cases impossible
  · rw [harmless_ctrlC sound isRoot.1]
    rintro ⟨this, user, elr, same, isUser⟩
    cases same
    exact absurd isUser (by decide)

end FudanOS.Kernel.ConsoleKill
