import FudanOS.Kernel.ProcTreeRuns
import FudanOS.Library.TreeSearch

/-!
# Process identifiers

`find_proc` of `kernel/proc.c`, and runs of the steps of `ProcTree` other than
those of `kill`: the pids which are in use and those on the free list are all
pids up to `max_pid`, each of them once, and `find_proc` finds the processes
which `start_proc` has started.
-/

namespace FudanOS.Kernel.Pids

open FudanOS.Library.Runs
open FudanOS.Library.TreeSearch
open FudanOS.Kernel.Sem
open FudanOS.Kernel.Sched
open FudanOS.Kernel.KillSafety
open FudanOS.Kernel.ProcTree

section Definitions

variable
    {Proc : Type}
    [DecidableEq Proc]

/-- `is_unused(p)` -/
def isUnused (state : ProcTree.State Proc) (proc : Proc) : Bool :=
  decide ((state.info proc).state = .unused)

/--
`find_proc(pid, current)`, at most so many calls deep: a process is returned
before the processes below it, and the children are searched in the order of
their list.
-/
def findProc (state : ProcTree.State Proc) (pid : Nat) :
    Nat → Proc → Option (Option Proc) :=
  search
    (fun current =>
      decide (state.pid current = pid) && !isUnused state current)
    state.children

/-- The steps of `kill`. -/
def isKill : Label Proc → Bool
  | .setKilled _ => true
  | .alert _ => true
  | _ => false

/-- The steps of processes other than those of `kill`. -/
def WithoutKill (root : Proc) (state : ProcTree.State Proc)
    (label : Label Proc) : Prop :=
  isKill label = false ∧ Allowed root state label

/-- `init_kproc` has started `root_proc`, which has the first pid. -/
structure Booted (root : Proc) (state : ProcTree.State Proc) : Prop where
  initial : Initial root state
  pid : state.pid root = 1
  pmanager : state.pmanager = ⟨1, []⟩
  hit : ∀ proc, state.hit proc = false

/-- `start_proc` has returned, and `wait` has not reaped the process. -/
def IsStarted (state : ProcTree.State Proc) (proc : Proc) : Prop :=
  state.used proc = true ∧ state.started proc = true ∧
    state.starting proc = 0

/-! ## The invariant -/

/-- Each pid up to `max_pid` is of one process, or once on the free list. -/
structure Numbered
    (used : Proc → Bool)
    (pid : Proc → Nat)
    (manager : PidManager) : Prop where
  distinct :
    ∀ left right, used left = true → used right = true →
      pid left = pid right → left = right
  nodup : manager.freepid.Nodup
  apart : ∀ proc, used proc = true → pid proc ∉ manager.freepid
  whole :
    ∀ number,
      1 ≤ number ∧ number ≤ manager.maxPid ↔
        (∃ proc, used proc = true ∧ pid proc = number) ∨
          number ∈ manager.freepid

/-- What holds of the start of processes which no `kill` has hit. -/
structure Begun (root : Proc) (state : ProcTree.State Proc) : Prop where
  root : state.started root = true
  unhit : ∀ proc, state.hit proc = false
  idle : ∀ proc, state.used proc = false → state.starting proc = 0
  active :
    ∀ proc, IsStarted state proc → (state.info proc).state ≠ .unused
  parents :
    ∀ proc other, state.used proc = true →
      state.parent proc = some other → state.started other = true

/-- A rank which rises from a process to its children and is bounded. -/
def Ranked
    (root : Proc)
    (used : Proc → Bool)
    (parent : Proc → Option Proc) : Prop :=
  ∃ (rank : Proc → Nat) (bound : Nat),
    rank root = 0 ∧
      (∀ proc, used proc = true → rank proc ≤ bound) ∧
      ∀ proc other, used proc = true → proc ≠ root →
        parent proc = some other → rank other < rank proc

/-- The invariant of the runs. -/
structure Named (root : Proc) (state : ProcTree.State Proc) : Prop where
  consistent : Consistent root state
  numbered : Numbered state.used state.pid state.pmanager
  begun : Begun root state
  ranked : Ranked root state.used state.parent

end Definitions

section Numbers

variable
    {Proc : Type}
    [DecidableEq Proc]
    {root : Proc}
    {used : Proc → Bool}
    {pid : Proc → Nat}
    {manager : PidManager}
    {proc : Proc}

omit [DecidableEq Proc] in
/-- `get_pid` returns a pid which no process has. -/
theorem Numbered.getPid
    (numbered : Numbered used pid manager) :
    (∀ other, used other = true → pid other ≠ (getPid manager).1) ∧
      (getPid manager).1 ∉ (getPid manager).2.freepid ∧
      (getPid manager).2.freepid.Nodup ∧
      (∀ number ∈ (getPid manager).2.freepid, number ∈ manager.freepid) ∧
      ∀ number,
        1 ≤ number ∧ number ≤ (getPid manager).2.maxPid ↔
          number = (getPid manager).1 ∨
            (∃ other, used other = true ∧ pid other = number) ∨
              number ∈ (getPid manager).2.freepid := by
  have whole := numbered.whole
  unfold ProcTree.getPid
  cases free : manager.freepid with
  | nil =>
      rw [free] at whole
      dsimp only
      have inside :
          ∀ other, used other = true → pid other ≤ manager.maxPid :=
        fun other isUsed =>
          ((whole (pid other)).mpr (Or.inl ⟨other, isUsed, rfl⟩)).2
      refine ⟨?_, List.not_mem_nil, List.nodup_nil, ?_, ?_⟩
      · intro other isUsed same
        have below := inside other isUsed
        omega
      · exact fun number member => member
      · intro number
        rw [← whole number]
        omega
  | cons first rest =>
      rw [free] at whole
      have nodup := numbered.nodup
      rw [free, List.nodup_cons] at nodup
      dsimp only
      refine ⟨?_, nodup.1, nodup.2, ?_, ?_⟩
      · intro other isUsed same
        apply numbered.apart other isUsed
        rw [free, same]
        exact List.mem_cons_self
      · exact fun number member => List.mem_cons_of_mem _ member
      · intro number
        rw [whole number, List.mem_cons]
        exact or_left_comm

/-- A new process gets a pid. -/
theorem Numbered.create
    (numbered : Numbered used pid manager)
    (unused : used proc = false) :
    Numbered (Function.update used proc true)
      (Function.update pid proc (ProcTree.getPid manager).1)
      (ProcTree.getPid manager).2 := by
  rcases numbered.getPid with ⟨unique, absent, nodup, subset, whole⟩
  have old :
      ∀ other, other ≠ proc → Function.update used proc true other = true →
        used other = true := by
    intro other different isUsed
    rwa [Function.update_of_ne different] at isUsed
  refine ⟨?_, nodup, ?_, ?_⟩
  · intro left right leftUsed rightUsed same
    by_cases isLeft : left = proc
    · by_cases isRight : right = proc
      · rw [isLeft, isRight]
      · rw [isLeft, Function.update_self, Function.update_of_ne isRight]
          at same
        exact absurd same.symm (unique right (old right isRight rightUsed))
    · by_cases isRight : right = proc
      · rw [isRight, Function.update_self, Function.update_of_ne isLeft]
          at same
        exact absurd same (unique left (old left isLeft leftUsed))
      · rw [Function.update_of_ne isLeft, Function.update_of_ne isRight]
          at same
        exact numbered.distinct left right (old left isLeft leftUsed)
          (old right isRight rightUsed) same
  · intro other isUsed
    by_cases same : other = proc
    · rw [same, Function.update_self]
      exact absent
    · rw [Function.update_of_ne same]
      exact fun member =>
        numbered.apart other (old other same isUsed) (subset _ member)
  · intro number
    rw [whole number, ← or_assoc]
    refine or_congr_left ?_
    constructor
    · rintro (rfl | ⟨other, isUsed, isPid⟩)
      · exact ⟨proc, Function.update_self .., Function.update_self ..⟩
      · have different : other ≠ proc := by
          rintro rfl
          rw [unused] at isUsed
          cases isUsed
        refine ⟨other, ?_, ?_⟩
        · rw [Function.update_of_ne different]
          exact isUsed
        · rw [Function.update_of_ne different]
          exact isPid
    · rintro ⟨other, isUsed, isPid⟩
      by_cases same : other = proc
      · rw [same, Function.update_self] at isPid
        exact Or.inl isPid.symm
      · rw [Function.update_of_ne same] at isPid
        exact Or.inr ⟨other, old other same isUsed, isPid⟩

/-- The pid of a reaped process goes to the free list. -/
theorem Numbered.reap
    (numbered : Numbered used pid manager)
    (isUsed : used proc = true) :
    Numbered (Function.update used proc false) pid
      (reusePid (pid proc) manager) := by
  have old :
      ∀ other, Function.update used proc false other = true →
        other ≠ proc ∧ used other = true := by
    intro other otherUsed
    by_cases same : other = proc
    · rw [same, Function.update_self] at otherUsed
      cases otherUsed
    · rw [Function.update_of_ne same] at otherUsed
      exact ⟨same, otherUsed⟩
  refine ⟨?_, ?_, ?_, ?_⟩
  · intro left right leftUsed rightUsed same
    exact numbered.distinct left right (old left leftUsed).2
      (old right rightUsed).2 same
  · exact List.nodup_cons.mpr ⟨numbered.apart proc isUsed, numbered.nodup⟩
  · intro other otherUsed member
    rcases old other otherUsed with ⟨different, wasUsed⟩
    rcases List.mem_cons.mp member with same | there
    · exact different (numbered.distinct other proc wasUsed isUsed same)
    · exact numbered.apart other wasUsed there
  · intro number
    change _ ↔ _ ∨ number ∈ pid proc :: manager.freepid
    rw [List.mem_cons, ← or_assoc]
    refine (numbered.whole number).trans (or_congr_left ?_)
    constructor
    · rintro ⟨other, otherUsed, isPid⟩
      by_cases same : other = proc
      · rw [same] at isPid
        exact Or.inr isPid.symm
      · refine Or.inl ⟨other, ?_, isPid⟩
        rw [Function.update_of_ne same]
        exact otherUsed
    · rintro (⟨other, otherUsed, isPid⟩ | rfl)
      · exact ⟨other, (old other otherUsed).2, isPid⟩
      · exact ⟨proc, isUsed, rfl⟩

end Numbers

/-! ## The steps -/

section Steps

variable
    {Proc : Type}
    [DecidableEq Proc]
    {root proc this : Proc}
    {state after : ProcTree.State Proc}

theorem activated_ne_unused
    {onalert : Bool}
    {info : ProcInfo}
    (isUsed : info.state ≠ .unused) :
    (activated onalert info).state ≠ .unused := by
  unfold activated
  split <;> try exact isUsed
  · split_ifs
    · exact isUsed
    · exact nofun
  · exact nofun
  · exact nofun

/-- A step which leaves the tree and the pids as they are. -/
structure SameTree (state after : ProcTree.State Proc) : Prop where
  used : after.used = state.used
  pid : after.pid = state.pid
  pmanager : after.pmanager = state.pmanager
  parent : after.parent = state.parent
  started : after.started = state.started
  starting : after.starting = state.starting
  hit : after.hit = state.hit
  active :
    ∀ proc, (state.info proc).state ≠ .unused →
      (after.info proc).state ≠ .unused

omit [DecidableEq Proc] in
theorem SameTree.refl (state : ProcTree.State Proc) :
    SameTree state state :=
  ⟨rfl, rfl, rfl, rfl, rfl, rfl, rfl, fun _ => id⟩

omit [DecidableEq Proc] in
theorem Begun.same
    (begun : Begun root state)
    (same : SameTree state after) :
    Begun root after := by
  rcases same with ⟨used, _, _, parent, started, starting, hit, active⟩
  refine ⟨?_, ?_, ?_, ?_, ?_⟩
  · rw [started]
    exact begun.root
  · rw [hit]
    exact begun.unhit
  · rw [used, starting]
    exact begun.idle
  · rintro proc ⟨isUsed, isStarted, isIdle⟩
    rw [used] at isUsed
    rw [started] at isStarted
    rw [starting] at isIdle
    exact active proc (begun.active proc ⟨isUsed, isStarted, isIdle⟩)
  · rw [used, parent, started]
    exact begun.parents

theorem Named.same
    (named : Named root state)
    (consistent : Consistent root after)
    (same : SameTree state after) :
    Named root after := by
  refine ⟨consistent, ?_, named.begun.same same, ?_⟩
  · rw [same.used, same.pid, same.pmanager]
    exact named.numbered
  · rw [same.used, same.parent]
    exact named.ranked

omit [DecidableEq Proc] in
theorem sameTree_info
    {info : Proc → ProcInfo}
    {childexit : Proc → Semaphore Proc}
    {phase : Proc → Phase}
    {plock : Option Proc}
    (active :
      ∀ proc, (state.info proc).state ≠ .unused →
        (info proc).state ≠ .unused) :
    SameTree state
      { state with
        info := info
        childexit := childexit
        phase := phase
        plock := plock } :=
  ⟨rfl, rfl, rfl, rfl, rfl, rfl, rfl, active⟩

theorem update_ne_unused
    {info : Proc → ProcInfo}
    {data : ProcInfo}
    (isUsed : (info this).state ≠ .unused → data.state ≠ .unused)
    (proc : Proc)
    (active : (info proc).state ≠ .unused) :
    (Function.update info this data proc).state ≠ .unused := by
  by_cases same : proc = this
  · rw [same, Function.update_self]
    rw [same] at active
    exact isUsed active
  · rw [Function.update_of_ne same]
    exact active

theorem sameTree_waitCheck :
    SameTree state (ProcTree.waitCheck this state).2 := by
  unfold ProcTree.waitCheck
  split
  · exact SameTree.refl state
  · exact sameTree_info fun _ => id

theorem sameTree_waitSleep
    (returned : ProcTree.waitSleep this state = .ok after) :
    SameTree state after := by
  unfold ProcTree.waitSleep at returned
  split at returned
  · cases returned
  · cases returned
    exact sameTree_info fun _ => id
  · cases returned
    refine sameTree_info (update_ne_unused fun active => ?_)
    unfold slept
    split_ifs
    · exact active
    · exact nofun

theorem sameTree_waitResume
    {outcome : Outcome Proc}
    (returned : ProcTree.waitResume this state = .ok (outcome, after)) :
    SameTree state after := by
  unfold ProcTree.waitResume at returned
  dsimp only at returned
  split at returned
  · cases returned
  · cases returned
    exact sameTree_info fun _ => id

theorem sameTree_postChildexit
    (returned : postChildexit proc state = .ok after) :
    SameTree state after := by
  unfold postChildexit at returned
  split at returned
  · cases returned
  · cases returned
    exact sameTree_info fun _ => id
  · cases returned
    exact sameTree_info (update_ne_unused activated_ne_unused)

omit [DecidableEq Proc] in
theorem SameTree.trans
    {middle : ProcTree.State Proc}
    (first : SameTree state middle)
    (second : SameTree middle after) :
    SameTree state after :=
  ⟨second.used.trans first.used, second.pid.trans first.pid,
    second.pmanager.trans first.pmanager, second.parent.trans first.parent,
    second.started.trans first.started,
    second.starting.trans first.starting, second.hit.trans first.hit,
    fun proc active => second.active proc (first.active proc active)⟩

theorem sameTree_setPhase
    {phase : Phase} :
    SameTree state (setPhase this phase state) :=
  sameTree_info fun _ => id

theorem sameTree_exitPostRoot
    (returned : ProcTree.exitPostRoot root this state = .ok after) :
    SameTree state after := by
  unfold ProcTree.exitPostRoot at returned
  split at returned
  · exact sameTree_setPhase.trans (sameTree_postChildexit returned)
  · cases returned
    exact SameTree.refl state

theorem sameTree_exitPostParent
    (returned : ProcTree.exitPostParent this state = .ok after) :
    SameTree state after := by
  unfold ProcTree.exitPostParent at returned
  split at returned
  · cases returned
  · exact sameTree_setPhase.trans (sameTree_postChildexit returned)

theorem sameTree_exitEnd :
    SameTree state (ProcTree.exitEnd this state) :=
  sameTree_info (update_ne_unused fun _ => nofun)

/-! ## The steps which change the tree -/

theorem Ranked.attach
    {used started : Proc → Bool}
    {parent : Proc → Option Proc}
    (ranked : Ranked root used parent)
    (parents :
      ∀ child other, used child = true → parent child = some other →
        started other = true)
    (isStarted : started this = true)
    (rootStarted : started root = true)
    (unstarted : started proc = false) :
    Ranked root used (Function.update parent proc (some this)) := by
  rcases ranked with ⟨rank, bound, zero, bounded, rises⟩
  have ne_of_started : ∀ other, started other = true → other ≠ proc := by
    rintro other otherStarted rfl
    rw [unstarted] at otherStarted
    cases otherStarted
  refine ⟨Function.update rank proc (rank this + 1),
    max bound (rank this + 1), ?_, ?_, ?_⟩
  · rw [Function.update_of_ne (ne_of_started root rootStarted)]
    exact zero
  · intro other isUsed
    by_cases same : other = proc
    · rw [same, Function.update_self]
      exact Nat.le_max_right _ _
    · rw [Function.update_of_ne same]
      exact Nat.le_trans (bounded other isUsed) (Nat.le_max_left _ _)
  · intro child other isUsed notRoot isParent
    by_cases same : child = proc
    · rw [same, Function.update_self] at isParent
      cases isParent
      rw [same, Function.update_self,
        Function.update_of_ne (ne_of_started this isStarted)]
      exact Nat.lt_succ_self _
    · rw [Function.update_of_ne same] at isParent
      have otherStarted := parents child other isUsed isParent
      rw [Function.update_of_ne same,
        Function.update_of_ne (ne_of_started other otherStarted)]
      exact rises child other isUsed notRoot isParent

theorem parents_attach
    {used started : Proc → Bool}
    {parent : Proc → Option Proc}
    (parents :
      ∀ child other, used child = true → parent child = some other →
        started other = true)
    (isStarted : started this = true)
    (child other : Proc)
    (isUsed : used child = true)
    (isParent : Function.update parent proc (some this) child = some other) :
    started other = true := by
  by_cases same : child = proc
  · rw [same, Function.update_self] at isParent
    cases isParent
    exact isStarted
  · rw [Function.update_of_ne same] at isParent
    exact parents child other isUsed isParent

/-- A new process has no parent. -/
theorem Ranked.create
    {used : Proc → Bool}
    {parent : Proc → Option Proc}
    (ranked : Ranked root used parent) :
    Ranked root (Function.update used proc true)
      (Function.update parent proc none) := by
  have old :
      ∀ other, Function.update used proc true other = true →
        other ≠ proc → used other = true := by
    intro other isUsed different
    rwa [Function.update_of_ne different] at isUsed
  rcases ranked with ⟨rank, bound, zero, bounded, rises⟩
  refine ⟨rank, max bound (rank proc), zero, ?_, ?_⟩
  · intro other isUsed
    by_cases same : other = proc
    · rw [same]
      exact Nat.le_max_right _ _
    · exact Nat.le_trans (bounded other (old other isUsed same))
        (Nat.le_max_left _ _)
  · intro child other isUsed childNotRoot isParent
    by_cases same : child = proc
    · rw [same, Function.update_self] at isParent
      cases isParent
    · rw [Function.update_of_ne same] at isParent
      exact rises child other (old child isUsed same) childNotRoot isParent

theorem parents_create
    {used started : Proc → Bool}
    {parent : Proc → Option Proc}
    (parents :
      ∀ child other, used child = true → parent child = some other →
        started other = true)
    (isNew :
      ∀ child other, used child = true → parent child = some other →
        other ≠ proc)
    (child other : Proc)
    (isUsed : Function.update used proc true child = true)
    (isParent : Function.update parent proc none child = some other) :
    Function.update started proc false other = true := by
  by_cases same : child = proc
  · rw [same, Function.update_self] at isParent
    cases isParent
  · rw [Function.update_of_ne same] at isParent isUsed
    rw [Function.update_of_ne (isNew child other isUsed isParent)]
    exact parents child other isUsed isParent

omit [DecidableEq Proc] in
theorem Ranked.mono
    {used fewer : Proc → Bool}
    {parent : Proc → Option Proc}
    (ranked : Ranked root used parent)
    (within : ∀ proc, fewer proc = true → used proc = true) :
    Ranked root fewer parent := by
  rcases ranked with ⟨rank, bound, zero, bounded, rises⟩
  refine ⟨rank, bound, zero, ?_, ?_⟩
  · exact fun other isUsed => bounded other (within other isUsed)
  · exact fun other parent isUsed =>
      rises other parent (within other isUsed)

/-- The children of a process are handed on to `root_proc`. -/
theorem Ranked.handOn
    {used : Proc → Bool}
    {parent : Proc → Option Proc}
    {children : List Proc}
    (ranked : Ranked root used parent)
    (isParent : ∀ child ∈ children, parent child = some this) :
    Ranked root used fun proc =>
      if proc ∈ children then some root else parent proc := by
  rcases ranked with ⟨rank, bound, zero, bounded, rises⟩
  refine ⟨rank, bound, zero, bounded, ?_⟩
  intro child other isUsed notRoot isOther
  dsimp only at isOther
  split_ifs at isOther with member
  · cases isOther
    have rise := rises child this isUsed notRoot (isParent child member)
    rw [zero]
    exact Nat.lt_of_le_of_lt (Nat.zero_le _) rise
  · exact rises child other isUsed notRoot isOther

theorem Named.setParent
    (named : Named root state)
    (consistent :
      Consistent root (ProcTree.setParentToThis this proc state))
    (isStarted : state.started this = true)
    (unstarted : state.started proc = false) :
    Named root (ProcTree.setParentToThis this proc state) := by
  have begun := named.begun
  refine ⟨consistent, named.numbered, ?_, ?_⟩
  · exact ⟨begun.root, begun.unhit, begun.idle, begun.active,
      parents_attach begun.parents isStarted⟩
  · exact named.ranked.attach begun.parents isStarted begun.root unstarted

/-- `start_proc` marks the process, whatever its parent. -/
theorem Begun.mark
    (begun : Begun root state)
    (isUsed : state.used proc = true) :
    Begun root
      { state with
        started := Function.update state.started proc true
        starting :=
          Function.update state.starting proc
            (state.starting proc + 1) } := by
  have marked :
      ∀ other, state.started other = true →
        Function.update state.started proc true other = true := by
    intro other isStarted
    by_cases same : other = proc
    · rw [same, Function.update_self]
    · rw [Function.update_of_ne same]
      exact isStarted
  refine ⟨marked root begun.root, begun.unhit, ?_, ?_, ?_⟩
  · intro other unused
    have different : other ≠ proc := by
      rintro rfl
      rw [isUsed] at unused
      cases unused
    dsimp only
    rw [Function.update_of_ne different]
    exact begun.idle other unused
  · rintro other ⟨otherUsed, otherStarted, isIdle⟩
    dsimp only at otherStarted isIdle
    by_cases same : other = proc
    · rw [same, Function.update_self] at isIdle
      cases isIdle
    · rw [Function.update_of_ne same] at otherStarted isIdle
      exact begun.active other ⟨otherUsed, otherStarted, isIdle⟩
  · intro child other childUsed isParent
    exact marked other (begun.parents child other childUsed isParent)

theorem Named.start
    (named : Named root state)
    (unstarted : Unstarted root state proc) :
    Named root (ProcTree.startProc root proc state) := by
  have begun := named.begun
  have consistent := named.consistent.startProc unstarted
  rcases unstarted with ⟨isUsed, notStarted, notRoot⟩
  unfold ProcTree.startProc at consistent ⊢
  cases orphan : state.parent proc with
  | none =>
      rw [orphan] at consistent
      have attached : Begun root (setParentToThis root proc state) :=
        ⟨begun.root, begun.unhit, begun.idle, begun.active,
          parents_attach begun.parents begun.root⟩
      exact ⟨consistent, named.numbered, attached.mark isUsed,
        named.ranked.attach begun.parents begun.root begun.root notStarted⟩
  | some other =>
      rw [orphan] at consistent
      exact ⟨consistent, named.numbered, begun.mark isUsed, named.ranked⟩

theorem Named.activate
    (named : Named root state)
    (positive : 0 < state.starting proc) :
    Named root (ProcTree.finishStart proc state) := by
  have begun := named.begun
  refine ⟨named.consistent.finishStart positive, named.numbered, ?_,
    named.ranked⟩
  refine ⟨begun.root, begun.unhit, ?_, ?_, begun.parents⟩
  · intro other unused
    have different : other ≠ proc := by
      rintro rfl
      rw [begun.idle other unused] at positive
      exact Nat.lt_irrefl 0 positive
    change Function.update state.starting proc _ other = 0
    rw [Function.update_of_ne different]
    exact begun.idle other unused
  · rintro other ⟨isUsed, isStarted, isIdle⟩
    change Function.update state.starting proc _ other = 0 at isIdle
    change (Function.update state.info proc _ other).state ≠ _
    by_cases same : other = proc
    · -- The process which is activated was unused.
      rw [same] at isUsed ⊢
      rw [Function.update_self]
      rcases named.consistent.alerted.activating proc isUsed
        (begun.unhit proc) positive with ⟨_, unused, _⟩
      unfold activated
      rw [unused]
      exact nofun
    · rw [Function.update_of_ne same] at isIdle ⊢
      exact begun.active other ⟨isUsed, isStarted, isIdle⟩

theorem Named.create
    (named : Named root state)
    (free : state.plock = none)
    (unused : state.used proc = false)
    (notRoot : proc ≠ root) :
    Named root (ProcTree.createProc proc state) := by
  have begun := named.begun
  have old :
      ∀ other, Function.update state.used proc true other = true →
        other ≠ proc → state.used other = true := by
    intro other isUsed different
    rwa [Function.update_of_ne different] at isUsed
  -- No process has the new one as its parent.
  have ne_of_parent :
      ∀ child other, state.used child = true →
        state.parent child = some other → other ≠ proc := by
    rintro child other isUsed isParent rfl
    have living :=
      named.consistent.living.parents child other isUsed isParent
    rw [unused] at living
    cases living.1
  refine ⟨named.consistent.createProc free unused notRoot,
    named.numbered.create unused, ⟨?_, ?_, ?_, ?_, ?_⟩, ?_⟩
  · change Function.update state.started proc false root = true
    rw [Function.update_of_ne (Ne.symm notRoot)]
    exact begun.root
  · intro other
    change Function.update state.hit proc _ other = false
    by_cases same : other = proc
    · rw [same, Function.update_self, begun.idle proc unused]
      rfl
    · rw [Function.update_of_ne same]
      exact begun.unhit other
  · intro other isUnused
    by_cases same : other = proc
    · rw [same]
      exact begun.idle proc unused
    · change Function.update state.used proc true other = false at isUnused
      rw [Function.update_of_ne same] at isUnused
      exact begun.idle other isUnused
  · rintro other ⟨isUsed, isStarted, isIdle⟩
    change Function.update state.used proc true other = true at isUsed
    change Function.update state.started proc false other = true at isStarted
    change (Function.update state.info proc _ other).state ≠ _
    by_cases same : other = proc
    · rw [same, Function.update_self] at isStarted
      cases isStarted
    · rw [Function.update_of_ne same] at isStarted ⊢
      exact begun.active other ⟨old other isUsed same, isStarted, isIdle⟩
  · exact parents_create begun.parents ne_of_parent
  · exact named.ranked.create

theorem Named.reap
    (named : Named root state)
    (free : state.plock = none)
    (at_ : At state this .reaping) :
    Named root (ProcTree.waitReap this state).2 := by
  have begun := named.begun
  have linked := named.consistent.linked
  rcases named.consistent.waitReap free at_ with
    ⟨_, _, _, _, consistent⟩
  rcases named.consistent.findZombie free at_ with
    ⟨child, found, member, isZombie⟩
  have isUsed := ((linked.member child this).mp member).1
  have notRoot := ((linked.member child this).mp member).2.1
  have isIdle : state.starting child = 0 := by
    refine named.consistent.alerted.quiet isUsed (Or.inl ?_)
      (begun.unhit child)
    rw [isZombie]
    exact nofun
  have old :
      ∀ other, Function.update state.used child false other = true →
        state.used other = true := by
    intro other otherUsed
    by_cases same : other = child
    · rw [same, Function.update_self] at otherUsed
      cases otherUsed
    · rwa [Function.update_of_ne same] at otherUsed
  unfold ProcTree.waitReap at consistent ⊢
  rw [found] at consistent ⊢
  refine ⟨consistent, named.numbered.reap isUsed, ⟨begun.root, begun.unhit,
    ?_, ?_, ?_⟩, ?_⟩
  · intro other isUnused
    by_cases same : other = child
    · rw [same]
      exact isIdle
    · change Function.update state.used child false other = false
        at isUnused
      rw [Function.update_of_ne same] at isUnused
      exact begun.idle other isUnused
  · rintro other ⟨otherUsed, isStarted, otherIdle⟩
    exact begun.active other ⟨old other otherUsed, isStarted, otherIdle⟩
  · intro other parent otherUsed isParent
    exact begun.parents other parent (old other otherUsed) isParent
  · exact named.ranked.mono old

theorem Named.exitBegin
    (named : Named root state)
    {code : Int}
    (consistent :
      Consistent root (ProcTree.exitBegin root this code state)) :
    Named root (ProcTree.exitBegin root this code state) := by
  have begun := named.begun
  have linked := named.consistent.linked
  refine ⟨consistent, named.numbered, ⟨begun.root, begun.unhit, begun.idle,
    begun.active, ?_⟩, ?_⟩
  · intro child other isUsed isParent
    change (if child ∈ state.children this then some root
      else state.parent child) = some other at isParent
    split_ifs at isParent with member
    · cases isParent
      exact begun.root
    · exact begun.parents child other isUsed isParent
  · exact named.ranked.handOn fun child member =>
      ((linked.member child this).mp member).2.2

/-- Every step but those of `kill` keeps the invariant. -/
theorem step_named
    (named : Named root state)
    {label : Label Proc}
    (allowed : WithoutKill root state label)
    (taken : step root state label = .ok after) :
    Named root after := by
  rcases allowed with ⟨notKill, isAllowed⟩
  have consistent : Consistent root after := by
    unfold ProcTree.step at taken
    rcases perform_keeps named.consistent isAllowed with
      stopped | ⟨outcome, target, done, kept⟩
    · rw [stopped] at taken
      cases taken
    · rw [done] at taken
      cases taken
      exact kept
  have performed :
      ∃ outcome, perform root state label = .ok (outcome, after) := by
    unfold ProcTree.step at taken
    cases done : perform root state label with
    | error stop =>
        rw [done] at taken
        cases taken
    | ok result =>
        rw [done] at taken
        cases taken
        exact ⟨result.1, rfl⟩
  rcases performed with ⟨outcome, performed⟩
  have quietly :
      ∀ {result : Except Stop (ProcTree.State Proc)},
        goesOn result = .ok (outcome, after) → result = .ok after := by
    intro result goes
    cases result with
    | error stop => cases goes
    | ok target =>
        cases goes
        rfl
  cases label with
  | create proc =>
      cases performed
      exact named.create isAllowed.1 isAllowed.2.1 isAllowed.2.2
  | setParent this proc =>
      cases performed
      rcases isAllowed with ⟨_, ⟨runs, _⟩, unstarted, _⟩
      exact named.setParent consistent runs.2.1 unstarted.2.1
  | start proc =>
      cases performed
      exact named.start isAllowed.2
  | activate proc =>
      cases performed
      exact named.activate isAllowed
  | waitCheck this =>
      have isAfter : (ProcTree.waitCheck this state).2 = after :=
        congrArg Prod.snd (Except.ok.inj performed)
      rw [← isAfter] at consistent ⊢
      exact named.same consistent sameTree_waitCheck
  | waitSleep this =>
      exact named.same consistent (sameTree_waitSleep (quietly performed))
  | waitResume this =>
      exact named.same consistent (sameTree_waitResume performed)
  | waitReap this =>
      have isAfter : (ProcTree.waitReap this state).2 = after :=
        congrArg Prod.snd (Except.ok.inj performed)
      rw [← isAfter]
      exact named.reap isAllowed.1 isAllowed.2
  | exitBegin this code =>
      cases performed
      exact named.exitBegin consistent
  | exitPostRoot this =>
      exact named.same consistent (sameTree_exitPostRoot (quietly performed))
  | exitPostParent this =>
      exact named.same consistent
        (sameTree_exitPostParent (quietly performed))
  | exitEnd this =>
      cases performed
      exact named.same consistent sameTree_exitEnd
  | setKilled proc => cases notKill
  | alert proc => cases notKill

end Steps

/-! ## Runs -/

section Runs

variable
    {Proc : Type}
    [DecidableEq Proc]
    {root : Proc}
    {state start finish : ProcTree.State Proc}

theorem Booted.named
    (booted : Booted root state) :
    Named root state := by
  have initial := booted.initial
  have only : ∀ proc, state.used proc = true → proc = root := by
    intro proc isUsed
    rw [initial.used] at isUsed
    exact of_decide_eq_true isUsed
  have rootUsed : state.used root = true := by
    rw [initial.used]
    exact decide_eq_true rfl
  refine ⟨initial.consistent, ⟨?_, ?_, ?_, ?_⟩,
    ⟨initial.started, booted.hit, fun proc _ => initial.starting proc, ?_,
      ?_⟩, fun _ => 0, 0, rfl, fun _ _ => Nat.le_refl 0, ?_⟩
  · intro left right leftUsed rightUsed _
    rw [only left leftUsed, only right rightUsed]
  · rw [booted.pmanager]
    exact List.nodup_nil
  · intro proc _
    rw [booted.pmanager]
    exact List.not_mem_nil
  · intro number
    rw [booted.pmanager]
    constructor
    · rintro ⟨atLeast, atMost⟩
      refine Or.inl ⟨root, rootUsed, ?_⟩
      rw [booted.pid]
      exact Nat.le_antisymm atLeast atMost
    · rintro (⟨proc, isUsed, rfl⟩ | member)
      · rw [only proc isUsed, booted.pid]
        exact ⟨Nat.le_refl 1, Nat.le_refl 1⟩
      · cases member
  · rintro proc ⟨isUsed, _, _⟩ unused
    have queued := initial.queued
    rw [only proc isUsed] at unused
    rw [unused] at queued
    cases queued
  · intro proc other isUsed isParent
    rw [only proc isUsed, initial.parent] at isParent
    cases isParent
    exact initial.started
  · intro proc other isUsed notRoot
    exact absurd (only proc isUsed) notRoot

/-- The children of a process are in use. -/
theorem used_of_below
    (consistent : Consistent root state)
    {proc : Proc}
    (below : Below state.children root proc) :
    state.used proc = true := by
  induction below with
  | refl => exact consistent.living.root.1
  | tail _ member _ =>
      exact ((consistent.linked.member _ _).mp member).1

/-- Every process which is in the tree is below `root_proc`. -/
theorem below_of_started
    (consistent : Consistent root state)
    (parents :
      ∀ proc other, state.used proc = true →
        state.parent proc = some other → state.started other = true)
    (ranked : Ranked root state.used state.parent)
    {proc : Proc}
    (isUsed : state.used proc = true)
    (isStarted : state.started proc = true) :
    Below state.children root proc := by
  rcases ranked with ⟨rank, bound, _, _, rises⟩
  have linked := consistent.linked
  -- By induction on the rank of the process.
  induction known : rank proc using Nat.strong_induction_on generalizing proc
    with
  | h number ih =>
      by_cases isRoot : proc = root
      · rw [isRoot]
        exact Relation.ReflTransGen.refl
      · rcases Option.isSome_iff_exists.mp
          (linked.placed proc isUsed isStarted) with ⟨parent, isParent⟩
        have member : proc ∈ state.children parent :=
          (linked.member proc parent).mpr ⟨isUsed, isRoot, isParent⟩
        have rise := rises proc parent isUsed isRoot isParent
        rw [known] at rise
        have parentUsed :=
          (consistent.living.parents proc parent isUsed isParent).1
        have parentStarted := parents proc parent isUsed isParent
        exact (ih (rank parent) rise parentUsed parentStarted rfl).tail
          member

/-- A search from `root_proc` for the only accepted process -/
theorem exists_search_root
    (consistent : Consistent root state)
    (ranked : Ranked root state.used state.parent)
    {accepts : Proc → Bool}
    (unique :
      ∀ left right, state.used left = true → state.used right = true →
        accepts left = true → accepts right = true → left = right) :
    ∃ enough, ∀ depth, enough ≤ depth →
      ∃ result,
        search accepts state.children depth root = some result ∧
          ∀ proc,
            result = some proc ↔
              Below state.children root proc ∧ accepts proc = true := by
  rcases ranked with ⟨rank, bound, zero, bounded, rises⟩
  have linked := consistent.linked
  have isRise :
      ∀ proc, ∀ child ∈ state.children proc, rank proc < rank child := by
    intro proc child member
    rcases (linked.member child proc).mp member with
      ⟨isUsed, notRoot, isParent⟩
    exact rises child proc isUsed notRoot isParent
  have isBounded :
      ∀ proc, ∀ child ∈ state.children proc, rank child ≤ bound := by
    intro proc child member
    exact bounded child ((linked.member child proc).mp member).1
  have inside : rank root ≤ bound := by
    rw [zero]
    exact Nat.zero_le bound
  refine ⟨bound + 1, fun depth enough => ?_⟩
  apply exists_search_iff isRise isBounded inside ?_ enough
  intro left right leftBelow rightBelow leftAccepted rightAccepted
  exact unique left right (used_of_below consistent leftBelow)
    (used_of_below consistent rightBelow) leftAccepted rightAccepted

theorem Named.isStarted_iff
    (named : Named root state)
    (proc : Proc) :
    Below state.children root proc ∧ isUnused state proc = false ↔
      IsStarted state proc := by
  have alerted := named.consistent.alerted
  have unhit := named.begun.unhit proc
  unfold isUnused
  constructor
  · rintro ⟨below, active⟩
    have isUsed := used_of_below named.consistent below
    have notUnused := of_decide_eq_false active
    refine ⟨isUsed, ?_, ?_⟩
    · by_contra notStarted
      have fresh :=
        (alerted.fresh proc isUsed
          ((Bool.not_eq_true _).mp notStarted)).2 unhit
      exact notUnused fresh.2
    · by_contra starting
      have unused :=
        alerted.activating proc isUsed unhit (Nat.pos_of_ne_zero starting)
      exact notUnused unused.2.1
  · intro isStarted
    have below :=
      below_of_started named.consistent named.begun.parents named.ranked
        isStarted.1 isStarted.2.1
    exact ⟨below, decide_eq_false (named.begun.active proc isStarted)⟩

/-- `find_proc` returns, and it returns the started process with the pid. -/
theorem Named.findProc
    (named : Named root state)
    (pid : Nat) :
    ∃ enough, ∀ depth, enough ≤ depth →
      ∃ result,
        Pids.findProc state pid depth root = some result ∧
          ∀ proc,
            result = some proc ↔
              IsStarted state proc ∧ state.pid proc = pid := by
  have accepts_iff :
      ∀ proc,
        (decide (state.pid proc = pid) && !isUnused state proc) = true ↔
          state.pid proc = pid ∧ isUnused state proc = false := by
    intro proc
    rw [Bool.and_eq_true, decide_eq_true_iff, Bool.not_eq_true']
  have unique :
      ∀ left right, state.used left = true → state.used right = true →
        (decide (state.pid left = pid) && !isUnused state left) = true →
        (decide (state.pid right = pid) && !isUnused state right) = true →
        left = right := by
    intro left right leftUsed rightUsed leftAccepted rightAccepted
    apply named.numbered.distinct left right leftUsed rightUsed
    rw [((accepts_iff left).mp leftAccepted).1,
      ((accepts_iff right).mp rightAccepted).1]
  rcases exists_search_root named.consistent named.ranked unique with
    ⟨enough, searched⟩
  refine ⟨enough, fun depth atLeast => ?_⟩
  rcases searched depth atLeast with ⟨result, found, exactly⟩
  refine ⟨result, found, fun proc => ?_⟩
  rw [exactly proc, accepts_iff, ← named.isStarted_iff proc]
  constructor
  · rintro ⟨below, isPid, active⟩
    exact ⟨⟨below, active⟩, isPid⟩
  · rintro ⟨⟨below, active⟩, isPid⟩
    exact ⟨below, isPid, active⟩

theorem run_named
    {labels : List (Label Proc)}
    (booted : Booted root start)
    (run :
      Run (Takes (ProcTree.step root)) (WithoutKill root) start labels
        finish) :
    Named root finish := by
  refine run.invariant booted.named ?_
  intro source label target named allowed taken
  exact step_named named allowed taken

/--
In every interleaving of the steps of `init_proc`, `start_proc`, `fork`, `exit`
and `wait`, no two processes have the same pid; each number up to `max_pid` is
the pid of a process or once on the free list, and not both; and `find_proc`
from `root_proc` returns the started process with the given pid, or `NULL`.
-/
theorem pids_unique
    {labels : List (Label Proc)}
    (booted : Booted root start)
    (run :
      Run (Takes (ProcTree.step root)) (WithoutKill root) start labels
        finish) :
    (∀ left right, finish.used left = true → finish.used right = true →
      finish.pid left = finish.pid right → left = right) ∧
    (∀ number,
      1 ≤ number ∧ number ≤ finish.pmanager.maxPid ↔
        (∃ proc, finish.used proc = true ∧ finish.pid proc = number) ∨
          number ∈ finish.pmanager.freepid) ∧
    (∀ proc, finish.used proc = true →
      finish.pid proc ∉ finish.pmanager.freepid) ∧
    finish.pmanager.freepid.Nodup ∧
    ∀ pid, ∃ enough, ∀ depth, enough ≤ depth →
      ∃ result,
        findProc finish pid depth root = some result ∧
          ∀ proc,
            result = some proc ↔
              IsStarted finish proc ∧ finish.pid proc = pid := by
  have named := run_named booted run
  have numbered := named.numbered
  exact ⟨numbered.distinct, numbered.whole, numbered.apart, numbered.nodup,
    named.findProc⟩

end Runs

/-! ## A pid is used again -/

instance
    {Proc : Type}
    [DecidableEq Proc]
    (root : Proc)
    (state : ProcTree.State Proc)
    (label : Label Proc) :
    Decidable (WithoutKill root state label) :=
  inferInstanceAs (Decidable (_ ∧ _))

theorem booted_onlyRoot : Booted 0 onlyRoot :=
  ⟨initial_onlyRoot, rfl, rfl, fun _ => rfl⟩

/-- The grandchild and the child exit, one is reaped, and another starts. -/
def usedAgain : List (Label (Fin 3)) :=
  [.create 1, .setParent 0 1, .start 1, .activate 1,
    .create 2, .setParent 1 2, .start 2, .activate 2,
    .exitBegin 2 5, .exitPostParent 2, .exitEnd 2,
    .exitBegin 1 7, .exitPostRoot 1, .exitPostParent 1, .exitEnd 1,
    .waitCheck 0, .waitSleep 0, .waitReap 0,
    .create 2, .setParent 0 2, .start 2, .activate 2]

theorem pids_unique_used_again :
    ∃ state : ProcTree.State (Fin 3),
      Run (Takes (ProcTree.step 0)) (WithoutKill 0) onlyRoot usedAgain
          state ∧
        state.pid 2 = 3 ∧ state.pmanager.maxPid = 3 ∧
        findProc state 3 3 0 = some (some 2) ∧
        ∀ left right, state.used left = true → state.used right = true →
          state.pid left = state.pid right → left = right := by
  have computed :
      ((executeChecked (ProcTree.step 0)
        (fun state label => decide (WithoutKill 0 state label))
        onlyRoot usedAgain).map
          fun state =>
            decide
              (state.pid 2 = 3 ∧ state.pmanager.maxPid = 3 ∧
                findProc state 3 3 0 = some (some 2))) = some true := by
    decide +kernel
  rcases Option.map_eq_some_iff.mp computed with ⟨state, executed, facts⟩
  have run :
      Run (Takes (ProcTree.step 0)) (WithoutKill 0) onlyRoot usedAgain
        state :=
    Run.of_executeChecked (fun _ _ => of_decide_eq_true) executed
  rcases of_decide_eq_true facts with ⟨pid, maxPid, found⟩
  exact ⟨state, run, pid, maxPid, found,
    (pids_unique booted_onlyRoot run).1⟩

end FudanOS.Kernel.Pids
