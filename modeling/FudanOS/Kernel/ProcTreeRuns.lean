import FudanOS.Kernel.ProcTree

/-!
# Every exit is reaped once

The invariant of the process tree over every interleaving of the steps.  It is
stated in parts, each over the fields it reads, so that a step which does not
write them keeps the part as it is.
-/

namespace FudanOS.Kernel.ProcTree

open FudanOS.Library.Runs
open FudanOS.Kernel.Sem
open FudanOS.Kernel.Sched
open FudanOS.Kernel.KillSafety

/-! ## The parts of the invariant -/

section Parts

variable {Proc : Type}

/-- The lists of children say the same as the parent fields. -/
structure Linked
    (root : Proc)
    (used started : Proc → Bool)
    (parent : Proc → Option Proc)
    (children : Proc → List Proc) : Prop where
  member :
    ∀ proc other,
      proc ∈ children other ↔
        used proc = true ∧ proc ≠ root ∧ parent proc = some other
  nodup : ∀ other, (children other).Nodup
  rooted : parent root = some root
  placed :
    ∀ proc, used proc = true → started proc = true →
      (parent proc).isSome = true

/-- A process whose children are not handed on does not exit. -/
structure Living
    (root : Proc)
    (used : Proc → Bool)
    (parent : Proc → Option Proc)
    (phase : Proc → Phase) : Prop where
  root : used root = true ∧ (phase root).live = true
  parents :
    ∀ proc other, used proc = true → parent proc = some other →
      used other = true ∧ (phase other).live = true

/-- `plock` is held by the `exit` which is under way. -/
def Locked
    (used : Proc → Bool)
    (phase : Proc → Phase)
    (plock : Option Proc) : Prop :=
  ∀ proc, used proc = true →
    (plock = some proc ↔ (phase proc).locks = true)

/-- A process is a zombie from the end of its `exit` on. -/
def Zombies
    (used : Proc → Bool)
    (info : Proc → ProcInfo)
    (phase : Proc → Phase) : Prop :=
  ∀ proc, used proc = true →
    ((info proc).state = .zombie ↔ phase proc = .gone)

/-- Only the process itself waits on its `childexit`. -/
structure Asleep
    (used : Proc → Bool)
    (childexit : Proc → Semaphore Proc)
    (phase : Proc → Phase) : Prop where
  balanced : ∀ proc, used proc = true → Sem.Balanced (childexit proc)
  sleeplist :
    ∀ proc, used proc = true →
      (childexit proc).sleeplist =
        if phase proc = .waiting false then [proc] else []

/-- The exited children are the tokens, and those still to be posted. -/
def Counted
    (used : Proc → Bool)
    (children : Proc → List Proc)
    (childexit : Proc → Semaphore Proc)
    (phase : Proc → Phase)
    (missing : Proc → Nat) : Prop :=
  ∀ proc, used proc = true → (phase proc).live = true →
    dueChildren children phase proc =
      credit childexit phase proc + missing proc

/-- A process which nobody killed sleeps until it is posted to. -/
structure Alerted
    (used started : Proc → Bool)
    (starting : Proc → Nat)
    (info : Proc → ProcInfo)
    (phase : Proc → Phase)
    (hit : Proc → Bool) : Prop where
  killed :
    ∀ proc, used proc = true → (info proc).killed = true →
      hit proc = true
  woken :
    ∀ proc, used proc = true → phase proc = .waiting false →
      (info proc).state.queued = true → hit proc = true
  activating :
    ∀ proc, used proc = true → hit proc = false → 0 < starting proc →
      starting proc = 1 ∧ (info proc).state = .unused ∧
        phase proc = .user
  fresh :
    ∀ proc, used proc = true → started proc = false →
      phase proc = .user ∧
        (hit proc = false →
          starting proc = 0 ∧ (info proc).state = .unused)

variable [DecidableEq Proc]

/-- The history agrees with the processes which exit. -/
structure Recorded
    (used : Proc → Bool)
    (pid : Proc → Nat)
    (exitcode : Proc → Int)
    (phase : Proc → Phase)
    (history : List (Event Proc)) : Prop where
  matched : Matched history
  pending :
    ∀ proc,
      pending history proc =
        if used proc = true ∧ (phase proc).live = false then
          some (pid proc, exitcode proc)
        else
          none

/-- The invariant, with the tokens which are still to be posted. -/
structure Kept
    (root : Proc)
    (missing : Proc → Nat)
    (state : State Proc) : Prop where
  linked :
    Linked root state.used state.started state.parent state.children
  living : Living root state.used state.parent state.phase
  locked : Locked state.used state.phase state.plock
  zombies : Zombies state.used state.info state.phase
  asleep : Asleep state.used state.childexit state.phase
  counted :
    Counted state.used state.children state.childexit state.phase missing
  alerted :
    Alerted state.used state.started state.starting state.info
      state.phase state.hit
  recorded :
    Recorded state.used state.pid state.exitcode state.phase
      state.history

/-- The invariant between the steps. -/
def Consistent (root : Proc) (state : State Proc) : Prop :=
  Kept root (owed root state.phase state.plock) state

theorem Initial.consistent
    {root : Proc}
    {state : State Proc}
    (initial : Initial root state) :
    Consistent root state := by
  have only : ∀ proc, state.used proc = true → proc = root := by
    intro proc isUsed
    rw [initial.used] at isUsed
    exact of_decide_eq_true isUsed
  have rootUsed : state.used root = true := by
    rw [initial.used]
    exact decide_eq_true rfl
  have notZombie : (state.info root).state ≠ .zombie := by
    intro isZombie
    have queued := initial.queued
    rw [isZombie] at queued
    cases queued
  constructor
  · constructor
    · intro proc other
      rw [initial.children]
      constructor
      · exact fun member => absurd member List.not_mem_nil
      · rintro ⟨isUsed, notRoot, -⟩
        exact absurd (only proc isUsed) notRoot
    · intro other
      rw [initial.children]
      exact List.nodup_nil
    · exact initial.parent
    · intro proc isUsed _
      rw [only proc isUsed, initial.parent]
      rfl
  · have live : (state.phase root).live = true := by
      rw [initial.phase]
      rfl
    refine ⟨⟨rootUsed, live⟩, ?_⟩
    intro proc other isUsed isParent
    rw [only proc isUsed, initial.parent] at isParent
    cases isParent
    exact ⟨rootUsed, live⟩
  · intro proc isUsed
    rw [only proc isUsed, initial.plock, initial.phase]
    simp [Phase.locks]
  · intro proc isUsed
    rw [only proc isUsed, initial.phase]
    simp [notZombie]
  · constructor
    · intro proc isUsed
      rw [only proc isUsed, initial.childexit]
      rfl
    · intro proc isUsed
      rw [only proc isUsed, initial.childexit, initial.phase]
      rfl
  · intro proc isUsed _
    rw [only proc isUsed]
    simp [dueChildren, credit, owed, initial.children, initial.childexit,
      initial.phase, initial.plock, initSem, Phase.held]
  · constructor
    · intro proc isUsed isKilled
      rw [only proc isUsed, initial.alive] at isKilled
      cases isKilled
    · intro proc isUsed waits
      rw [only proc isUsed, initial.phase] at waits
      cases waits
    · intro proc isUsed _ positive
      rw [initial.starting] at positive
      exact absurd positive (Nat.lt_irrefl 0)
    · intro proc isUsed unstarted
      rw [only proc isUsed, initial.started] at unstarted
      cases unstarted
  · constructor
    · rw [initial.history]
      trivial
    · intro proc
      rw [initial.history]
      by_cases isUsed : state.used proc = true
      · rw [only proc isUsed, initial.phase]
        simp [ProcTree.pending, Phase.live]
      · simp [ProcTree.pending, isUsed]

end Parts

/-! ## Moves of one process -/

section Moves

variable
    {Proc : Type}
    [DecidableEq Proc]
    {root : Proc}
    {missing : Proc → Nat}
    {state : State Proc}

/-- What the old and the new phase of a process share is as it was. -/
theorem phase_update
    {Value : Type}
    (view : Phase → Value)
    {phase : Proc → Phase}
    {proc : Proc}
    {next : Phase}
    (same : view next = view (phase proc))
    (other : Proc) :
    view (Function.update phase proc next other) = view (phase other) := by
  by_cases here : other = proc
  · subst here
    rw [Function.update_self, same]
  · rw [Function.update_of_ne here]

omit [DecidableEq Proc] in
theorem dueChildren_congr
    {children : Proc → List Proc}
    {phase after : Proc → Phase}
    (same : ∀ other, (after other).due = (phase other).due)
    (proc : Proc) :
    dueChildren children after proc = dueChildren children phase proc := by
  unfold dueChildren
  simp only [same]

theorem Phase.live_cases
    {phase : Phase}
    (live : phase.live = true) :
    phase.locks = false ∧ phase.due = false ∧ phase ≠ .gone ∧
      phase.remaining = 0 := by
  cases phase with
  | exiting times => cases live
  | posted => cases live
  | gone => cases live
  | user => decide
  | checked => decide
  | reaping => decide
  | waiting up => cases up <;> decide

theorem Phase.locks_cases
    {phase : Phase}
    (locks : phase.locks = true) :
    phase.live = false ∧ phase ≠ .gone ∧ phase ≠ .user ∧
      ∀ up, phase ≠ .waiting up := by
  cases phase with
  | exiting times => simp [Phase.live]
  | posted => simp [Phase.live]
  | _ => cases locks

@[simp]
theorem activated_killed
    (onalert : Bool)
    (info : ProcInfo) :
    (activated onalert info).killed = info.killed := by
  unfold activated
  split <;> try rfl
  split_ifs <;> rfl

@[simp]
theorem activated_zombie
    (onalert : Bool)
    (info : ProcInfo) :
    (activated onalert info).state = .zombie ↔ info.state = .zombie := by
  unfold activated
  split <;> simp_all
  split_ifs <;> simp_all

omit [DecidableEq Proc] in
/-- No `activate_proc` is to come for a process which has run. -/
theorem Alerted.quiet
    {used started : Proc → Bool}
    {starting : Proc → Nat}
    {info : Proc → ProcInfo}
    {phase : Proc → Phase}
    {hit : Proc → Bool}
    (alerted : Alerted used started starting info phase hit)
    {proc : Proc}
    (isUsed : used proc = true)
    (ran : (info proc).state ≠ .unused ∨ phase proc ≠ .user)
    (notHit : hit proc = false) :
    starting proc = 0 := by
  by_contra positive
  rcases alerted.activating proc isUsed notHit
    (Nat.pos_of_ne_zero positive) with ⟨-, unused, user⟩
  rcases ran with notUnused | notUser
  · exact notUnused unused
  · exact notUser user

/-- A started process goes on to another phase and state. -/
theorem Alerted.move
    {used started : Proc → Bool}
    {starting : Proc → Nat}
    {info : Proc → ProcInfo}
    {phase : Proc → Phase}
    {hit : Proc → Bool}
    (alerted : Alerted used started starting info phase hit)
    {proc : Proc}
    (isStarted : started proc = true)
    (quiet : hit proc = false → starting proc = 0)
    {data : ProcInfo}
    (killed : data.killed = (info proc).killed)
    {next : Phase}
    (woken :
      used proc = true → next = .waiting false →
        data.state.queued = true → hit proc = true) :
    Alerted used started starting (Function.update info proc data)
      (Function.update phase proc next) hit := by
  constructor
  · intro other isUsed isKilled
    apply alerted.killed other isUsed
    by_cases here : other = proc
    · subst here
      rw [← killed]
      simpa using isKilled
    · simpa [here] using isKilled
  · intro other isUsed waits queued
    by_cases here : other = proc
    · subst here
      simp only [Function.update_self] at waits queued
      exact woken isUsed waits queued
    · simp only [Function.update_of_ne here] at waits queued
      exact alerted.woken other isUsed waits queued
  · intro other isUsed notHit positive
    by_cases here : other = proc
    · subst here
      rw [quiet notHit] at positive
      exact absurd positive (Nat.lt_irrefl 0)
    · simp only [Function.update_of_ne here]
      exact alerted.activating other isUsed notHit positive
  · intro other isUsed unstarted
    by_cases here : other = proc
    · subst here
      rw [isStarted] at unstarted
      cases unstarted
    · simp only [Function.update_of_ne here]
      exact alerted.fresh other isUsed unstarted

/-- A change of `childexit` and phase of a process which does not exit. -/
theorem Kept.moveLive
    (kept : Kept root missing state)
    {proc : Proc}
    (wasLive : (state.phase proc).live = true)
    {info : ProcInfo}
    (notZombie : info.state ≠ .zombie)
    {sem : Semaphore Proc}
    (balanced : Sem.Balanced sem)
    {next : Phase}
    (isLive : next.live = true)
    (sleeplist :
      sem.sleeplist = if next = .waiting false then [proc] else [])
    {rest : Proc → Nat}
    (counts :
      sem.val.toNat + next.held + rest proc =
        credit state.childexit state.phase proc + missing proc)
    (others : ∀ other, other ≠ proc → rest other = missing other)
    (alerted :
      Alerted state.used state.started state.starting
        (Function.update state.info proc info)
        (Function.update state.phase proc next) state.hit) :
    Kept root rest
      { state with
        info := Function.update state.info proc info
        childexit := Function.update state.childexit proc sem
        phase := Function.update state.phase proc next } := by
  rcases Phase.live_cases wasLive with ⟨unlocked, notDue, notGone, -⟩
  rcases Phase.live_cases isLive with ⟨nextUnlocked, nextNotDue, nextNotGone, -⟩
  have live :
      ∀ other,
        (Function.update state.phase proc next other).live =
          (state.phase other).live :=
    phase_update Phase.live (isLive.trans wasLive.symm)
  refine ⟨kept.linked, ?_, ?_, ?_, ?_, ?_, alerted, ?_⟩
  · constructor
    · simp only [live]
      exact kept.living.root
    · simp only [live]
      exact kept.living.parents
  · intro other isUsed
    simp only [phase_update Phase.locks
      (nextUnlocked.trans unlocked.symm)]
    exact kept.locked other isUsed
  · intro other isUsed
    by_cases here : other = proc
    · subst here
      simp [notZombie, nextNotGone]
    · simpa [here] using kept.zombies other isUsed
  · constructor
    · intro other isUsed
      by_cases here : other = proc
      · subst here
        simpa using balanced
      · simpa [here] using kept.asleep.balanced other isUsed
    · intro other isUsed
      by_cases here : other = proc
      · subst here
        simpa using sleeplist
      · simpa [here] using kept.asleep.sleeplist other isUsed
  · intro other isUsed isOtherLive
    simp only [live] at isOtherLive
    have before := kept.counted other isUsed isOtherLive
    simp only [dueChildren_congr
      (phase_update Phase.due (nextNotDue.trans notDue.symm)), before]
    by_cases here : other = proc
    · subst here
      simpa [credit] using counts.symm
    · simp [credit, here, others other here]
  · refine ⟨kept.recorded.matched, ?_⟩
    simp only [live]
    exact kept.recorded.pending

/-- As `moveLive`, when the state of the process stays. -/
theorem Kept.moveSem
    (kept : Kept root missing state)
    {proc : Proc}
    (isUsed : state.used proc = true)
    (wasLive : (state.phase proc).live = true)
    {sem : Semaphore Proc}
    (balanced : Sem.Balanced sem)
    {next : Phase}
    (isLive : next.live = true)
    (sleeplist :
      sem.sleeplist = if next = .waiting false then [proc] else [])
    {rest : Proc → Nat}
    (counts :
      sem.val.toNat + next.held + rest proc =
        credit state.childexit state.phase proc + missing proc)
    (others : ∀ other, other ≠ proc → rest other = missing other)
    (alerted :
      Alerted state.used state.started state.starting state.info
        (Function.update state.phase proc next) state.hit) :
    Kept root rest
      { state with
        childexit := Function.update state.childexit proc sem
        phase := Function.update state.phase proc next } := by
  have notZombie : (state.info proc).state ≠ .zombie := by
    rw [Ne, kept.zombies proc isUsed]
    exact (Phase.live_cases wasLive).2.2.1
  have moved :=
    kept.moveLive wasLive notZombie balanced isLive sleeplist counts others
      (by rwa [Function.update_eq_self])
  rwa [Function.update_eq_self] at moved

/-- `post_sem` gives one of the missing tokens to a process. -/
theorem Kept.post
    (kept : Kept root missing state)
    {proc : Proc}
    (isUsed : state.used proc = true)
    (live : (state.phase proc).live = true)
    {rest : Proc → Nat}
    (given : missing proc = rest proc + 1)
    (others : ∀ other, other ≠ proc → rest other = missing other) :
    postChildexit proc state = .error .overflow ∨
      ∃ after,
        postChildexit proc state = .ok after ∧ Kept root rest after ∧
          after.plock = state.plock ∧
          ∀ other,
            (after.phase other).remaining =
              (state.phase other).remaining := by
  have balanced := kept.asleep.balanced proc isUsed
  have listed := kept.asleep.sleeplist proc isUsed
  unfold postChildexit
  rcases postSem_cases balanced with
    ⟨stopped, -⟩ | ⟨enough, nobody, posted⟩ |
      ⟨front, sleeper, negative, split, posted⟩
  · left
    rw [stopped]
  · right
    rw [posted]
    have awake : state.phase proc ≠ .waiting false := by
      intro waits
      rw [nobody, if_pos waits] at listed
      cases listed
    refine ⟨_, rfl, ?_, rfl, fun _ => rfl⟩
    have moved :
        Kept root rest
          { state with
            childexit :=
              Function.update state.childexit proc
                ⟨(state.childexit proc).val + 1, []⟩
            phase :=
              Function.update state.phase proc (state.phase proc) } := by
      refine kept.moveSem isUsed live ?_ live ?_ ?_ others ?_
      · unfold Sem.Balanced
        simp only [List.length_nil]
        omega
      · rw [if_neg awake]
      · unfold credit
        simp only
        omega
      · rw [Function.update_eq_self]
        exact kept.alerted
    rwa [Function.update_eq_self] at moved
  · right
    rw [posted]
    have waits : state.phase proc = .waiting false := by
      by_contra awake
      rw [split, if_neg awake] at listed
      simp at listed
    rw [split, if_pos waits] at listed
    have alone : front = [] ∧ sleeper = proc := by
      cases front with
      | nil => simpa using listed
      | cons first others => simp at listed
    rcases alone with ⟨rfl, rfl⟩
    have minusOne : (state.childexit sleeper).val = -1 := by
      unfold Sem.Balanced at balanced
      rw [split] at balanced
      simp only [List.nil_append, List.length_singleton] at balanced
      omega
    have notUser : state.phase sleeper ≠ .user := by
      rw [waits]
      decide
    have isStarted : state.started sleeper = true := by
      by_contra unstarted
      exact notUser (kept.alerted.fresh sleeper isUsed
        (by simpa using unstarted)).1
    have notZombie : (state.info sleeper).state ≠ .zombie := by
      rw [Ne, kept.zombies sleeper isUsed, waits]
      decide
    refine ⟨_, rfl, ?_, rfl, ?_⟩
    · refine kept.moveLive live ?_ ?_ rfl rfl ?_ others ?_
      · rwa [Ne, activated_zombie]
      · rw [minusOne]
        rfl
      · unfold credit
        rw [minusOne, waits]
        simp only [Phase.held]
        omega
      · refine kept.alerted.move isStarted
          (kept.alerted.quiet isUsed (Or.inr notUser))
          (activated_killed false _) ?_
        intro _ isWaiting
        cases isWaiting
    · exact phase_update Phase.remaining (by rw [waits]; rfl)

end Moves

/-! ## The steps of `wait` -/

section Wait

variable
    {Proc : Type}
    [DecidableEq Proc]
    {root this : Proc}
    {state : State Proc}

/-- A process which does not exit goes on, and `exit` is where it was. -/
theorem remaining_update
    (wasLive : (state.phase this).live = true)
    {next : Phase}
    (isLive : next.live = true)
    (other : Proc) :
    (Function.update state.phase this next other).remaining =
      (state.phase other).remaining := by
  apply phase_update Phase.remaining
  rw [(Phase.live_cases isLive).2.2.2, (Phase.live_cases wasLive).2.2.2]

theorem Kept.consistent
    {after : State Proc}
    (state : State Proc)
    (kept : Kept root (owed root state.phase state.plock) after)
    (plock : after.plock = state.plock)
    (remaining :
      ∀ other,
        (after.phase other).remaining = (state.phase other).remaining) :
    Consistent root after := by
  have same :
      owed root after.phase after.plock =
        owed root state.phase state.plock := by
    funext proc
    rw [plock]
    unfold owed
    simp only [remaining]
  unfold Consistent
  rwa [same]

/-- A process which runs is not about to be activated. -/
theorem Consistent.moves
    (consistent : Consistent root state)
    (runs : Runs state this)
    {data : ProcInfo}
    (killed : data.killed = (state.info this).killed)
    {next : Phase}
    (woken :
      next = .waiting false → data.state.queued = true →
        state.hit this = true) :
    Alerted state.used state.started state.starting
      (Function.update state.info this data)
      (Function.update state.phase this next) state.hit := by
  rcases runs with ⟨isUsed, isStarted, queued⟩
  have notUnused : (state.info this).state ≠ .unused := by
    intro unused
    rw [unused] at queued
    cases queued
  exact consistent.alerted.move isStarted
    (consistent.alerted.quiet isUsed (Or.inl notUnused)) killed
    fun _ => woken

theorem Consistent.movesPhase
    (consistent : Consistent root state)
    (runs : Runs state this)
    {next : Phase}
    (woken :
      next = .waiting false → (state.info this).state.queued = true →
        state.hit this = true) :
    Alerted state.used state.started state.starting state.info
      (Function.update state.phase this next) state.hit := by
  have moved := consistent.moves runs rfl woken
  rwa [Function.update_eq_self] at moved

/-- A phase of `wait` without a change of the semaphore. -/
theorem Consistent.setPhase
    (consistent : Consistent root state)
    (runs : Runs state this)
    (wasLive : (state.phase this).live = true)
    {next : Phase}
    (isLive : next.live = true)
    (awake : state.phase this ≠ .waiting false ∧ next ≠ .waiting false)
    (held : next.held = (state.phase this).held) :
    Consistent root (ProcTree.setPhase this next state) := by
  have listed := consistent.asleep.sleeplist this runs.1
  rw [if_neg awake.1] at listed
  have moved :
      Kept root (owed root state.phase state.plock)
        { state with
          childexit :=
            Function.update state.childexit this (state.childexit this)
          phase := Function.update state.phase this next } := by
    refine consistent.moveSem runs.1 wasLive
      (consistent.asleep.balanced this runs.1) isLive ?_ ?_
      (fun _ _ => rfl) ?_
    · rw [if_neg awake.2, listed]
    · unfold credit
      rw [held]
    · exact consistent.movesPhase runs fun waits => absurd waits awake.2
  rw [Function.update_eq_self] at moved
  exact moved.consistent state rfl (remaining_update wasLive isLive)

theorem Consistent.waitCheck
    (consistent : Consistent root state)
    (at_ : At state this .user) :
    Consistent root (ProcTree.waitCheck this state).2 := by
  unfold ProcTree.waitCheck
  split
  · exact consistent
  · apply consistent.setPhase at_.1
    · rw [at_.2]
      rfl
    · rfl
    · rw [at_.2]
      decide
    · rw [at_.2]
      rfl

theorem Consistent.waitSleep
    (consistent : Consistent root state)
    (at_ : At state this .checked) :
    ProcTree.waitSleep this state = .error .overflow ∨
      ∃ after,
        ProcTree.waitSleep this state = .ok after ∧
          Consistent root after := by
  rcases at_ with ⟨runs, checked⟩
  have balanced := consistent.asleep.balanced this runs.1
  have listed := consistent.asleep.sleeplist this runs.1
  have live : (state.phase this).live = true := by
    rw [checked]
    rfl
  have nobody : (state.childexit this).sleeplist = [] := by
    rw [listed, checked]
    rfl
  unfold Sem.Balanced at balanced
  rw [nobody, List.length_nil] at balanced
  unfold ProcTree.waitSleep
  rcases waitSem_cases (state.childexit this) this with
    ⟨stopped, -⟩ | ⟨positive, taken⟩ | ⟨empty, taken⟩
  · left
    rw [stopped]
  · right
    rw [taken]
    refine ⟨_, rfl, ?_⟩
    refine Kept.consistent state ?_ rfl (remaining_update live rfl)
    refine consistent.moveSem runs.1 live ?_ rfl nobody ?_
      (fun _ _ => rfl) (consistent.movesPhase runs fun waits => ?_)
    · unfold Sem.Balanced
      simp only [nobody, List.length_nil]
      omega
    · unfold credit
      rw [checked]
      simp only [Phase.held]
      omega
    · cases waits
  · right
    rw [taken]
    refine ⟨_, rfl, ?_⟩
    refine Kept.consistent state ?_ rfl (remaining_update live rfl)
    have notZombie : (state.info this).state ≠ .zombie := by
      rw [Ne, consistent.zombies this runs.1, checked]
      decide
    refine consistent.moveLive live ?_ ?_ rfl ?_ ?_
      (fun _ _ => rfl) (consistent.moves runs ?_ ?_)
    · unfold slept
      split_ifs
      · exact notZombie
      · exact ProcState.noConfusion
    · unfold Sem.Balanced
      simp only [nobody, List.length_singleton]
      omega
    · rw [nobody]
      rfl
    · unfold credit
      rw [checked]
      simp only [Phase.held]
      omega
    · unfold slept
      split_ifs <;> rfl
    · -- Only a killed process is still queued.
      intro _ queued
      unfold slept at queued
      split_ifs at queued with isKilled
      · exact consistent.alerted.killed this runs.1 isKilled
      · cases queued

theorem Consistent.waitResume
    (consistent : Consistent root state)
    (runs : Runs state this)
    {up : Bool}
    (waits : state.phase this = .waiting up) :
    ∃ outcome after,
      ProcTree.waitResume this state = .ok (outcome, after) ∧
        Consistent root after ∧
          (outcome = .failed → state.hit this = true) := by
  have balanced := consistent.asleep.balanced this runs.1
  have listed := consistent.asleep.sleeplist this runs.1
  have live : (state.phase this).live = true := by
    rw [waits]
    rfl
  unfold ProcTree.waitResume
  cases up with
  | true =>
      have isUp : decide (state.phase this = .waiting true) = true :=
        decide_eq_true waits
      have nobody : (state.childexit this).sleeplist = [] := by
        rw [listed, waits]
        rfl
      rw [isUp]
      refine ⟨.nothing, _, rfl, ?_, fun impossible => by cases impossible⟩
      refine Kept.consistent state ?_ rfl (remaining_update live rfl)
      refine consistent.moveSem runs.1 live balanced rfl ?_ ?_
        (fun _ _ => rfl) (consistent.movesPhase runs fun impossible => ?_)
      · exact nobody
      · unfold credit
        rw [waits]
        rfl
      · cases impossible
  | false =>
      have notUp : decide (state.phase this = .waiting true) = false := by
        rw [waits]
        rfl
      rw [if_pos waits] at listed
      have asleep : this ∈ (state.childexit this).sleeplist := by
        rw [listed]
        exact List.mem_singleton_self this
      rcases resumeSem_asleep balanced asleep with ⟨negative, resumed⟩
      rw [notUp]
      simp only [resumed]
      have hit : state.hit this = true :=
        consistent.alerted.woken this runs.1 waits runs.2.2
      refine ⟨.failed, _, rfl, ?_, fun _ => hit⟩
      refine Kept.consistent state ?_ rfl (remaining_update live rfl)
      have nobody : (state.childexit this).sleeplist.erase this = [] := by
        rw [listed]
        exact List.erase_cons_head this []
      refine consistent.moveSem runs.1 live ?_ rfl nobody ?_
        (fun _ _ => rfl) (consistent.movesPhase runs fun impossible => ?_)
      · unfold Sem.Balanced at balanced ⊢
        rw [listed, List.length_singleton] at balanced
        simp only [nobody, List.length_nil]
        omega
      · unfold credit
        rw [waits]
        unfold Sem.Balanced at balanced
        rw [listed, List.length_singleton] at balanced
        simp only [Phase.held, Bool.false_eq_true, if_false]
        omega
      · cases impossible

/-- An exited child is a zombie when no `exit` holds `plock`. -/
theorem Kept.due_iff
    {missing : Proc → Nat}
    (kept : Kept root missing state)
    (free : state.plock = none)
    {child : Proc}
    (isUsed : state.used child = true) :
    (state.phase child).due = true ↔
      (state.info child).state = .zombie := by
  have unlocked : (state.phase child).locks ≠ true := by
    intro locks
    have holds := (kept.locked child isUsed).mpr locks
    rw [free] at holds
    cases holds
  rw [kept.zombies child isUsed]
  constructor
  · intro due
    cases known : state.phase child with
    | gone => rfl
    | posted =>
        rw [known] at unlocked
        exact absurd rfl unlocked
    | _ =>
        rw [known] at due
        cases due
  · intro gone
    rw [gone]
    rfl

/-- `wait` finds a zombie once `wait_sem` has returned `true`. -/
theorem Consistent.findZombie
    (consistent : Consistent root state)
    (free : state.plock = none)
    (at_ : At state this .reaping) :
    ∃ child,
      ProcTree.findZombie this state = some child ∧
        child ∈ state.children this ∧
          (state.info child).state = .zombie := by
  rcases at_ with ⟨runs, reaping⟩
  have counted :=
    consistent.counted this runs.1 (by rw [reaping]; rfl)
  have positive : 0 < dueChildren state.children state.phase this := by
    rw [counted]
    unfold credit
    rw [reaping]
    simp only [Phase.held]
    omega
  rcases List.countP_pos_iff.mp positive with ⟨child, member, due⟩
  have isUsed := ((consistent.linked.member child this).mp member).1
  have found : (ProcTree.findZombie this state).isSome = true := by
    unfold ProcTree.findZombie
    rw [List.find?_isSome]
    exact ⟨child, member,
      decide_eq_true ((consistent.due_iff free isUsed).mp due)⟩
  rcases Option.isSome_iff_exists.mp found with ⟨zombie, isFirst⟩
  have checked := List.find?_some isFirst
  exact ⟨zombie, isFirst, List.mem_of_find?_eq_some isFirst,
    of_decide_eq_true checked⟩

theorem Alerted.free
    {started : Proc → Bool}
    {used : Proc → Bool}
    {starting : Proc → Nat}
    {info : Proc → ProcInfo}
    {phase : Proc → Phase}
    {hit : Proc → Bool}
    (alerted : Alerted used started starting info phase hit)
    (child : Proc) :
    Alerted (Function.update used child false) started starting info
      phase hit := by
  have still :
      ∀ other, Function.update used child false other = true →
        used other = true := by
    intro other isUsed
    by_cases here : other = child
    · subst here
      simp at isUsed
    · simpa [here] using isUsed
  constructor
  · intro other isUsed
    exact alerted.killed other (still other isUsed)
  · intro other isUsed
    exact alerted.woken other (still other isUsed)
  · intro other isUsed
    exact alerted.activating other (still other isUsed)
  · intro other isUsed
    exact alerted.fresh other (still other isUsed)

/-- A zombie is freed, and a token with it. -/
theorem Kept.free
    {missing rest : Proc → Nat}
    (kept : Kept root missing state)
    {child : Proc}
    (member : child ∈ state.children this)
    (gone : state.phase child = .gone)
    (taken : missing this = rest this + 1)
    (others : ∀ other, other ≠ this → rest other = missing other)
    (pmanager : PidManager) :
    Kept root rest
      { state with
        used := Function.update state.used child false
        children :=
          Function.update state.children this
            ((state.children this).erase child)
        pmanager := pmanager
        history :=
          .reaped child (state.pid child) (state.exitcode child) ::
            state.history } := by
  rcases (kept.linked.member child this).mp member with
    ⟨isUsed, notRoot, isParent⟩
  have nodup := kept.linked.nodup this
  have notLive : (state.phase child).live = false := by
    rw [gone]
    rfl
  have still :
      ∀ other, Function.update state.used child false other = true →
        other ≠ child ∧ state.used other = true := by
    intro other isOther
    by_cases here : other = child
    · subst here
      simp at isOther
    · exact ⟨here, by simpa [here] using isOther⟩
  have remains :
      ∀ other, state.used other = true →
        (state.phase other).live = true →
          Function.update state.used child false other = true := by
    intro other isOther live
    have different : other ≠ child := by
      rintro rfl
      rw [notLive] at live
      cases live
    rwa [Function.update_of_ne different]
  refine ⟨⟨?_, ?_, kept.linked.rooted, ?_⟩, ⟨?_, ?_⟩, ?_, ?_, ⟨?_, ?_⟩,
    ?_, kept.alerted.free child, ⟨?_, ?_⟩⟩
  · intro proc other
    dsimp only
    by_cases here : proc = child
    · subst here
      simp only [Function.update_self, Bool.false_eq_true, false_and,
        iff_false]
      by_cases isThis : other = this
      · subst isThis
        rw [Function.update_self]
        exact nodup.not_mem_erase
      · rw [Function.update_of_ne isThis, kept.linked.member]
        rintro ⟨-, -, isOther⟩
        rw [isParent] at isOther
        exact isThis (Option.some.inj isOther).symm
    · rw [Function.update_of_ne here, ← kept.linked.member]
      by_cases isThis : other = this
      · subst isThis
        rw [Function.update_self]
        exact List.mem_erase_of_ne here
      · rw [Function.update_of_ne isThis]
  · intro other
    dsimp only
    by_cases isThis : other = this
    · subst isThis
      rw [Function.update_self]
      exact nodup.erase child
    · rw [Function.update_of_ne isThis]
      exact kept.linked.nodup other
  · intro proc isOther
    exact kept.linked.placed proc (still proc isOther).2
  · exact ⟨remains root kept.living.root.1 kept.living.root.2,
      kept.living.root.2⟩
  · intro proc other isOther known
    have lives := kept.living.parents proc other (still proc isOther).2 known
    exact ⟨remains other lives.1 lives.2, lives.2⟩
  · intro proc isOther
    exact kept.locked proc (still proc isOther).2
  · intro proc isOther
    exact kept.zombies proc (still proc isOther).2
  · intro proc isOther
    exact kept.asleep.balanced proc (still proc isOther).2
  · intro proc isOther
    exact kept.asleep.sleeplist proc (still proc isOther).2
  · intro proc isOther live
    have counted := kept.counted proc (still proc isOther).2 live
    by_cases isThis : proc = this
    · subst isThis
      have due : (state.phase child).due = true := by
        rw [gone]
        rfl
      have fewer :=
        List.countP_erase (fun child => (state.phase child).due)
          (state.children proc) child
      rw [if_pos ⟨member, due⟩] at fewer
      unfold dueChildren at counted ⊢
      simp only [Function.update_self, fewer]
      omega
    · unfold dueChildren at counted ⊢
      simp only [Function.update_of_ne isThis]
      rw [counted, others proc isThis]
  · refine ⟨?_, kept.recorded.matched⟩
    rw [kept.recorded.pending, if_pos ⟨isUsed, notLive⟩]
  · intro proc
    dsimp only
    unfold ProcTree.pending
    by_cases here : proc = child
    · subst here
      simp
    · simp only [if_neg here, Function.update_of_ne here]
      exact kept.recorded.pending proc

theorem Consistent.waitReap
    (consistent : Consistent root state)
    (free : state.plock = none)
    (at_ : At state this .reaping) :
    ∃ child,
      child ∈ state.children this ∧
        (state.info child).state = .zombie ∧
        (ProcTree.waitReap this state).1 =
          .reaped child (state.pid child) (state.exitcode child) ∧
        Consistent root (ProcTree.waitReap this state).2 := by
  rcases consistent.findZombie free at_ with
    ⟨child, found, member, isZombie⟩
  rcases at_ with ⟨runs, reaping⟩
  have isUsed := ((consistent.linked.member child this).mp member).1
  have gone : state.phase child = .gone :=
    (consistent.zombies child isUsed).mp isZombie
  have different : child ≠ this := by
    rintro rfl
    rw [gone] at reaping
    cases reaping
  have live : (state.phase this).live = true := by
    rw [reaping]
    rfl
  have nobody : (state.childexit this).sleeplist = [] := by
    rw [consistent.asleep.sleeplist this runs.1, reaping]
    rfl
  -- The token is given up first, and then the zombie.
  have given :
      Kept root
        (Function.update (owed root state.phase state.plock) this
          (owed root state.phase state.plock this + 1))
        { state with
          childexit :=
            Function.update state.childexit this (state.childexit this)
          phase := Function.update state.phase this .user } := by
    refine consistent.moveSem runs.1 live
      (consistent.asleep.balanced this runs.1) rfl ?_ ?_ ?_
      (consistent.movesPhase runs fun impossible => ?_)
    · exact nobody
    · unfold credit
      rw [reaping, Function.update_self]
      simp only [Phase.held]
      omega
    · intro other isOther
      rw [Function.update_of_ne isOther]
    · cases impossible
  rw [Function.update_eq_self] at given
  unfold ProcTree.waitReap
  rw [found]
  refine ⟨child, member, isZombie, rfl, ?_⟩
  refine Kept.consistent state ?_ rfl (remaining_update live rfl)
  refine given.free member ?_ (Function.update_self ..) ?_ _
  · exact (Function.update_of_ne different _ _).trans gone
  · intro other isOther
    rw [Function.update_of_ne isOther]

end Wait

/-! ## The steps of `exit` -/

section Exit

variable
    {Proc : Type}
    [DecidableEq Proc]
    {root this : Proc}
    {missing : Proc → Nat}
    {state : State Proc}

/-- The exited children of a process which hands them on. -/
theorem Kept.zombies_eq
    (kept : Kept root missing state)
    (free : state.plock = none) :
    ProcTree.zombies this state =
      dueChildren state.children state.phase this := by
  unfold ProcTree.zombies dueChildren
  apply List.countP_congr
  intro child member
  rw [decide_eq_true_eq]
  exact (kept.due_iff free
    ((kept.linked.member child this).mp member).1).symm

/-- The children of a process become children of `root_proc`. -/
theorem Linked.handOn
    {used started : Proc → Bool}
    {parent : Proc → Option Proc}
    {children : Proc → List Proc}
    (linked : Linked root used started parent children)
    (notRoot : this ≠ root) :
    Linked root used started
      (fun proc =>
        if proc ∈ children this then some root else parent proc)
      (Function.update
        (Function.update children root (children this ++ children root))
        this []) := by
  have apart :
      ∀ proc other, proc ∈ children this → proc ∈ children other →
        other = this := by
    intro proc other here there
    have isThis := ((linked.member proc this).mp here).2.2
    have isOther := ((linked.member proc other).mp there).2.2
    rw [isThis] at isOther
    exact (Option.some.inj isOther).symm
  constructor
  · intro proc other
    by_cases handed : proc ∈ children this
    · have known := (linked.member proc this).mp handed
      simp only [if_pos handed, Option.some.injEq]
      by_cases isThis : other = this
      · subst isThis
        simp [notRoot.symm]
      · by_cases isRoot : other = root
        · subst isRoot
          simp [isThis, handed, known.1, known.2.1]
        · rw [Function.update_of_ne isThis, Function.update_of_ne isRoot]
          constructor
          · intro member
            exact absurd (apart proc other handed member) isThis
          · rintro ⟨-, -, same⟩
            exact absurd same.symm isRoot
    · simp only [if_neg handed]
      rw [← linked.member]
      by_cases isThis : other = this
      · subst isThis
        simp [handed]
      · by_cases isRoot : other = root
        · subst isRoot
          simp [isThis, handed]
        · rw [Function.update_of_ne isThis, Function.update_of_ne isRoot]
  · intro other
    by_cases isThis : other = this
    · subst isThis
      rw [Function.update_self]
      exact List.nodup_nil
    · by_cases isRoot : other = root
      · subst isRoot
        rw [Function.update_of_ne isThis, Function.update_self]
        refine List.nodup_append.mpr
          ⟨linked.nodup this, linked.nodup other, ?_⟩
        rintro proc here _ there rfl
        exact isThis (apart proc other here there)
      · rw [Function.update_of_ne isThis, Function.update_of_ne isRoot]
        exact linked.nodup other
  · have notChild : root ∉ children this := by
      intro member
      exact ((linked.member root this).mp member).2.1 rfl
    rw [if_neg notChild]
    exact linked.rooted
  · intro proc isUsed isStarted
    split_ifs
    · rfl
    · exact linked.placed proc isUsed isStarted

theorem Consistent.exitBegin
    (consistent : Consistent root state)
    (free : state.plock = none)
    (at_ : At state this .user)
    (notRoot : this ≠ root)
    (code : Int) :
    Consistent root (ProcTree.exitBegin root this code state) := by
  rcases at_ with ⟨runs, user⟩
  have notDue :
      ∀ other,
        (Function.update state.phase this
          (.exiting (ProcTree.zombies this state)) other).due =
            (state.phase other).due := by
    apply phase_update Phase.due
    rw [user]
    rfl
  have unlocked :
      ∀ other, state.used other = true →
        (state.phase other).locks = false := by
    intro other isUsed
    have iff := consistent.locked other isUsed
    rw [free] at iff
    simpa using iff
  refine ⟨consistent.linked.handOn notRoot, ⟨?_, ?_⟩, ?_, ?_, ⟨?_, ?_⟩,
    ?_, ?_, ⟨?_, ?_⟩⟩
  · simpa [ProcTree.exitBegin, notRoot.symm] using consistent.living.root
  · intro proc other isUsed isParent
    simp only [ProcTree.exitBegin] at isUsed isParent ⊢
    by_cases handed : proc ∈ state.children this
    · rw [if_pos handed] at isParent
      cases isParent
      simpa [notRoot.symm] using consistent.living.root
    · rw [if_neg handed] at isParent
      have lives := consistent.living.parents proc other isUsed isParent
      have different : other ≠ this := by
        rintro rfl
        by_cases isRoot : proc = root
        · rw [isRoot, consistent.linked.rooted] at isParent
          exact notRoot (Option.some.inj isParent).symm
        · exact handed ((consistent.linked.member proc other).mpr
            ⟨isUsed, isRoot, isParent⟩)
      rw [Function.update_of_ne different]
      exact lives
  · intro proc isUsed
    simp only [ProcTree.exitBegin] at isUsed ⊢
    by_cases here : proc = this
    · subst here
      simp [Phase.locks]
    · rw [Function.update_of_ne here, unlocked proc isUsed]
      simp [Ne.symm here]
  · intro proc isUsed
    simp only [ProcTree.exitBegin] at isUsed ⊢
    rw [consistent.zombies proc isUsed]
    by_cases here : proc = this
    · subst here
      simp [user]
    · rw [Function.update_of_ne here]
  · exact consistent.asleep.balanced
  · intro proc isUsed
    simp only [ProcTree.exitBegin] at isUsed ⊢
    rw [consistent.asleep.sleeplist proc isUsed]
    by_cases here : proc = this
    · subst here
      simp [user]
    · simp only [Function.update_of_ne here]
  · -- The tokens which go over with the zombies are owed to `root_proc`.
    intro proc isUsed live
    simp only [ProcTree.exitBegin] at isUsed live ⊢
    rw [dueChildren_congr notDue]
    have different : proc ≠ this := by
      rintro rfl
      rw [Function.update_self] at live
      cases live
    rw [Function.update_of_ne different] at live
    have counted := consistent.counted proc isUsed live
    by_cases isRoot : proc = root
    · subst isRoot
      have times :
          ProcTree.zombies this state =
            dueChildren state.children state.phase this :=
        consistent.zombies_eq free
      simp [dueChildren, credit, owed, different, free,
        Phase.remaining] at counted times ⊢
      omega
    · simpa [dueChildren, credit, owed, different, isRoot] using counted
  · exact consistent.movesPhase runs fun impossible => by cases impossible
  · refine ⟨?_, consistent.recorded.matched⟩
    rw [consistent.recorded.pending, if_neg]
    rintro ⟨-, notLive⟩
    rw [user] at notLive
    cases notLive
  · intro proc
    simp only [ProcTree.exitBegin, ProcTree.pending]
    by_cases here : proc = this
    · subst here
      simp [runs.1, Phase.live]
    · simp only [if_neg here, Function.update_of_ne here]
      exact consistent.recorded.pending proc

/-- `exit` goes on while it holds `plock`. -/
theorem Kept.moveLocked
    (kept : Kept root missing state)
    (locks : (state.phase this).locks = true)
    {next : Phase}
    (stillLocks : next.locks = true)
    {rest : Proc → Nat}
    (counted :
      Counted state.used state.children state.childexit
        (Function.update state.phase this next) rest) :
    Kept root rest (ProcTree.setPhase this next state) := by
  rcases Phase.locks_cases locks with ⟨notLive, notGone, notUser, awake⟩
  rcases Phase.locks_cases stillLocks with
    ⟨nextNotLive, nextNotGone, -, nextAwake⟩
  have live :
      ∀ other,
        (Function.update state.phase this next other).live =
          (state.phase other).live :=
    phase_update Phase.live (nextNotLive.trans notLive.symm)
  have same :
      ∀ value other,
        value ≠ next → value ≠ state.phase this →
          (Function.update state.phase this next other = value ↔
            state.phase other = value) := by
    intro value other notNext notOld
    by_cases here : other = this
    · subst here
      rw [Function.update_self]
      exact iff_of_false notNext.symm notOld.symm
    · rw [Function.update_of_ne here]
  have sameUser :
      ∀ other, state.phase other = .user →
        Function.update state.phase this next other = .user := by
    intro other user
    have different : other ≠ this := by
      rintro rfl
      exact notUser user
    rw [Function.update_of_ne different]
    exact user
  refine ⟨kept.linked, ⟨?_, ?_⟩, ?_, ?_, ⟨kept.asleep.balanced, ?_⟩,
    counted, ⟨kept.alerted.killed, ?_, ?_, ?_⟩,
    ⟨kept.recorded.matched, ?_⟩⟩
  · simp only [ProcTree.setPhase, live]
    exact kept.living.root
  · simp only [ProcTree.setPhase, live]
    exact kept.living.parents
  · intro proc isUsed
    simp only [ProcTree.setPhase]
    rw [phase_update Phase.locks (stillLocks.trans locks.symm)]
    exact kept.locked proc isUsed
  · intro proc isUsed
    simp only [ProcTree.setPhase]
    rw [same _ proc nextNotGone.symm notGone.symm]
    exact kept.zombies proc isUsed
  · intro proc isUsed
    simp only [ProcTree.setPhase,
      same _ proc (nextAwake false).symm (awake false).symm]
    exact kept.asleep.sleeplist proc isUsed
  · intro proc isUsed
    simp only [ProcTree.setPhase]
    rw [same _ proc (nextAwake false).symm (awake false).symm]
    exact kept.alerted.woken proc isUsed
  · intro proc isUsed notHit positive
    rcases kept.alerted.activating proc isUsed notHit positive with
      ⟨once, unused, user⟩
    exact ⟨once, unused, sameUser proc user⟩
  · intro proc isUsed unstarted
    rcases kept.alerted.fresh proc isUsed unstarted with ⟨user, quiet⟩
    exact ⟨sameUser proc user, quiet⟩
  · intro proc
    simp only [ProcTree.setPhase, live]
    exact kept.recorded.pending proc

/-- A process which does not live has no part in the accounts. -/
theorem Counted.moveLocked
    {used : Proc → Bool}
    {children : Proc → List Proc}
    {childexit : Proc → Semaphore Proc}
    {phase : Proc → Phase}
    (counted : Counted used children childexit phase missing)
    (locks : (phase this).locks = true)
    {next : Phase}
    (stillLocks : next.locks = true)
    {rest : Proc → Nat}
    (moved :
      ∀ proc,
        dueChildren children (Function.update phase this next) proc +
            missing proc =
          dueChildren children phase proc + rest proc) :
    Counted used children childexit (Function.update phase this next)
      rest := by
  intro proc isUsed live
  have different : proc ≠ this := by
    rintro rfl
    rw [Function.update_self, (Phase.locks_cases stillLocks).1] at live
    cases live
  rw [Function.update_of_ne different] at live
  have before := counted proc isUsed live
  have change := moved proc
  unfold credit at before ⊢
  rw [Function.update_of_ne different]
  omega

theorem Consistent.holds
    (consistent : Consistent root state)
    (isUsed : state.used this = true)
    (locks : (state.phase this).locks = true) :
    state.plock = some this :=
  (consistent.locked this isUsed).mpr locks

theorem Consistent.exitPostRoot
    (consistent : Consistent root state)
    (runs : Runs state this)
    {times : Nat}
    (exiting : state.phase this = .exiting (times + 1)) :
    ProcTree.exitPostRoot root this state = .error .overflow ∨
      ∃ after,
        ProcTree.exitPostRoot root this state = .ok after ∧
          Consistent root after := by
  have locks : (state.phase this).locks = true := by
    rw [exiting]
    rfl
  have holds := consistent.holds runs.1 locks
  have different : root ≠ this := by
    rintro rfl
    have lives := consistent.living.root.2
    rw [(Phase.locks_cases locks).1] at lives
    cases lives
  have moved :
      Kept root (owed root state.phase state.plock)
        (ProcTree.setPhase this (.exiting times) state) := by
    refine consistent.moveLocked locks rfl
      (consistent.counted.moveLocked locks rfl ?_)
    intro proc
    rw [dueChildren_congr
      (phase_update Phase.due (by rw [exiting]; rfl))]
  have lives :
      ((ProcTree.setPhase this (.exiting times) state).phase
        root).live = true := by
    simp only [ProcTree.setPhase, Function.update_of_ne different]
    exact consistent.living.root.2
  unfold ProcTree.exitPostRoot
  rw [exiting]
  have given :
      owed root state.phase state.plock root =
        owed root
          (ProcTree.setPhase this (.exiting times) state).phase
          state.plock root + 1 := by
    simp [owed, holds, exiting, Phase.remaining, ProcTree.setPhase]
  have others :
      ∀ other, other ≠ root →
        owed root
            (ProcTree.setPhase this (.exiting times) state).phase
            state.plock other =
          owed root state.phase state.plock other := by
    intro other notRoot
    simp [owed, notRoot]
  rcases moved.post consistent.living.root.1 lives given others with
    stopped | ⟨after, posted, kept, plock, remaining⟩
  · exact Or.inl stopped
  · exact Or.inr ⟨after, posted, Kept.consistent _ kept plock remaining⟩

/-- One more child has exited. -/
theorem dueChildren_exits
    {children : Proc → List Proc}
    {phase : Proc → Phase}
    {next : Phase}
    (notDue : (phase this).due = false)
    (due : next.due = true)
    {proc : Proc}
    (nodup : (children proc).Nodup) :
    dueChildren children (Function.update phase this next) proc =
      dueChildren children phase proc +
        if this ∈ children proc then 1 else 0 := by
  unfold dueChildren
  revert nodup
  induction children proc with
  | nil => simp
  | cons child others ih =>
      intro nodup
      rcases List.nodup_cons.mp nodup with ⟨notLater, laterNodup⟩
      rw [List.countP_cons, List.countP_cons, ih laterNodup]
      by_cases here : child = this
      · subst here
        simp [notLater, notDue, due]
      · simp [here, Ne.symm here]
        omega

theorem Consistent.exitPostParent
    (consistent : Consistent root state)
    (at_ : At state this (.exiting 0)) :
    ProcTree.exitPostParent this state = .error .overflow ∨
      ∃ after,
        ProcTree.exitPostParent this state = .ok after ∧
          Consistent root after := by
  rcases at_ with ⟨runs, exiting⟩
  have locks : (state.phase this).locks = true := by
    rw [exiting]
    rfl
  have holds := consistent.holds runs.1 locks
  have notRoot : this ≠ root := by
    rintro rfl
    have lives := consistent.living.root.2
    rw [(Phase.locks_cases locks).1] at lives
    cases lives
  rcases Option.isSome_iff_exists.mp
    (consistent.linked.placed this runs.1 runs.2.1) with
    ⟨parent, isParent⟩
  have lives := consistent.living.parents this parent runs.1 isParent
  have different : parent ≠ this := by
    rintro rfl
    rw [(Phase.locks_cases locks).1] at lives
    cases lives.2
  have member :
      ∀ other, this ∈ state.children other ↔ other = parent := by
    intro other
    rw [consistent.linked.member, isParent]
    constructor
    · rintro ⟨-, -, same⟩
      exact (Option.some.inj same).symm
    · rintro rfl
      exact ⟨runs.1, notRoot, rfl⟩
  let before := owed root state.phase state.plock
  have moved :
      Kept root (Function.update before parent (before parent + 1))
        (ProcTree.setPhase this .posted state) := by
    refine consistent.moveLocked locks rfl
      (consistent.counted.moveLocked locks rfl ?_)
    intro proc
    rw [dueChildren_exits (by rw [exiting]; rfl) rfl
      (consistent.linked.nodup proc)]
    by_cases isOwner : proc = parent
    · subst isOwner
      rw [if_pos ((member proc).mpr rfl), Function.update_self]
      change _ + 1 + before proc = _
      omega
    · rw [if_neg (fun listed => isOwner ((member proc).mp listed)),
        Function.update_of_ne isOwner]
      rfl
  have stillLives :
      ((ProcTree.setPhase this .posted state).phase parent).live =
        true := by
    simp only [ProcTree.setPhase, Function.update_of_ne different]
    exact lives.2
  have sameOwed :
      owed root (ProcTree.setPhase this .posted state).phase
          state.plock = before := by
    funext proc
    simp [before, owed, holds, exiting, Phase.remaining,
      ProcTree.setPhase]
  unfold ProcTree.exitPostParent
  rw [isParent]
  rcases moved.post lives.1 stillLives (Function.update_self ..)
      (fun other notOwner => (Function.update_of_ne notOwner _ _).symm) with
    stopped | ⟨after, posted, kept, plock, remaining⟩
  · exact Or.inl stopped
  · rw [← sameOwed] at kept
    exact Or.inr ⟨after, posted, Kept.consistent _ kept plock remaining⟩

theorem Consistent.exitEnd
    (consistent : Consistent root state)
    (at_ : At state this .posted) :
    Consistent root (ProcTree.exitEnd this state) := by
  rcases at_ with ⟨runs, posted⟩
  have locks : (state.phase this).locks = true := by
    rw [posted]
    rfl
  have holds := consistent.holds runs.1 locks
  have live :
      ∀ other,
        (Function.update state.phase this .gone other).live =
          (state.phase other).live :=
    phase_update Phase.live (by rw [posted]; rfl)
  refine ⟨consistent.linked, ⟨?_, ?_⟩, ?_, ?_,
    ⟨consistent.asleep.balanced, ?_⟩, ?_, ?_,
    ⟨consistent.recorded.matched, ?_⟩⟩
  · simp only [ProcTree.exitEnd, live]
    exact consistent.living.root
  · simp only [ProcTree.exitEnd, live]
    exact consistent.living.parents
  · intro proc isUsed
    simp only [ProcTree.exitEnd] at isUsed ⊢
    refine iff_of_false (by simp) ?_
    by_cases here : proc = this
    · subst here
      simp [Phase.locks]
    · rw [Function.update_of_ne here, ← consistent.locked proc isUsed,
        holds]
      exact fun same => here (Option.some.inj same).symm
  · intro proc isUsed
    simp only [ProcTree.exitEnd] at isUsed ⊢
    by_cases here : proc = this
    · subst here
      simp
    · rw [Function.update_of_ne here, Function.update_of_ne here]
      exact consistent.zombies proc isUsed
  · intro proc isUsed
    simp only [ProcTree.exitEnd] at isUsed ⊢
    rw [consistent.asleep.sleeplist proc isUsed]
    by_cases here : proc = this
    · subst here
      simp [posted]
    · simp only [Function.update_of_ne here]
  · intro proc isUsed isLive
    simp only [ProcTree.exitEnd] at isUsed isLive ⊢
    rw [live] at isLive
    have counted := consistent.counted proc isUsed isLive
    have different : proc ≠ this := by
      rintro rfl
      rw [posted] at isLive
      cases isLive
    rw [dueChildren_congr
      (phase_update Phase.due (by rw [posted]; rfl)), counted]
    simp [credit, owed, holds, posted, different, Phase.remaining]
  · have moved :
        Alerted state.used state.started state.starting
          (Function.update state.info this
            { state.info this with state := .zombie })
          (Function.update state.phase this .gone) state.hit := by
      refine consistent.moves runs ?_ ?_
      · rfl
      · intro impossible
        cases impossible
    exact moved
  · intro proc
    simp only [ProcTree.exitEnd, live]
    exact consistent.recorded.pending proc

end Exit

/-! ## Creation, start and kill -/

section Create

variable
    {Proc : Type}
    [DecidableEq Proc]
    {root this proc : Proc}
    {state : State Proc}

/-- A process without a parent becomes a child. -/
theorem Linked.setParent
    {used started : Proc → Bool}
    {parent : Proc → Option Proc}
    {children : Proc → List Proc}
    (linked : Linked root used started parent children)
    (isUsed : used proc = true)
    (notRoot : proc ≠ root)
    (orphan : parent proc = none) :
    Linked root used started (Function.update parent proc (some this))
      (Function.update children this (proc :: children this)) := by
  have nowhere : ∀ other, proc ∉ children other := by
    intro other member
    have isParent := ((linked.member proc other).mp member).2.2
    rw [orphan] at isParent
    cases isParent
  constructor
  · intro other owner
    by_cases here : other = proc
    · subst here
      simp only [Function.update_self, Option.some.injEq]
      by_cases isThis : owner = this
      · subst isThis
        simp [isUsed, notRoot]
      · rw [Function.update_of_ne isThis]
        refine iff_of_false (nowhere owner) ?_
        rintro ⟨-, -, same⟩
        exact isThis same.symm
    · rw [Function.update_of_ne here, ← linked.member]
      by_cases isThis : owner = this
      · subst isThis
        simp [here]
      · rw [Function.update_of_ne isThis]
  · intro owner
    by_cases isThis : owner = this
    · subst isThis
      rw [Function.update_self]
      exact List.nodup_cons.mpr ⟨nowhere owner, linked.nodup owner⟩
    · rw [Function.update_of_ne isThis]
      exact linked.nodup owner
  · rw [Function.update_of_ne notRoot.symm]
    exact linked.rooted
  · intro other otherUsed isStarted
    by_cases here : other = proc
    · subst here
      simp
    · rw [Function.update_of_ne here]
      exact linked.placed other otherUsed isStarted

theorem Consistent.setParentToThis
    (consistent : Consistent root state)
    (lives : state.used this = true ∧ (state.phase this).live = true)
    (unstarted : Unstarted root state proc)
    (orphan : state.parent proc = none) :
    Consistent root (ProcTree.setParentToThis this proc state) := by
  rcases unstarted with ⟨isUsed, isUnstarted, notRoot⟩
  have user := (consistent.alerted.fresh proc isUsed isUnstarted).1
  refine ⟨consistent.linked.setParent isUsed notRoot orphan,
    ⟨consistent.living.root, ?_⟩, consistent.locked, consistent.zombies,
    consistent.asleep, ?_, consistent.alerted, consistent.recorded⟩
  · intro other owner otherUsed isParent
    simp only [ProcTree.setParentToThis] at otherUsed isParent ⊢
    by_cases here : other = proc
    · subst here
      rw [Function.update_self] at isParent
      cases isParent
      exact lives
    · rw [Function.update_of_ne here] at isParent
      exact consistent.living.parents other owner otherUsed isParent
  · intro other otherUsed live
    refine Eq.trans ?_ (consistent.counted other otherUsed live)
    unfold dueChildren
    simp only [ProcTree.setParentToThis]
    by_cases isThis : other = this
    · subst isThis
      simp [user, Phase.due]
    · rw [Function.update_of_ne isThis]

/-- `start_proc` counts the start of a process which has its parent. -/
theorem Consistent.markStarted
    (consistent : Consistent root state)
    (unstarted : Unstarted root state proc)
    (placed : (state.parent proc).isSome = true) :
    Consistent root
      { state with
        started := Function.update state.started proc true
        starting :=
          Function.update state.starting proc
            (state.starting proc + 1) } := by
  rcases unstarted with ⟨isUsed, isUnstarted, -⟩
  have fresh := consistent.alerted.fresh proc isUsed isUnstarted
  refine ⟨⟨consistent.linked.member, consistent.linked.nodup,
    consistent.linked.rooted, ?_⟩, consistent.living, consistent.locked,
    consistent.zombies, consistent.asleep, consistent.counted,
    ⟨consistent.alerted.killed, consistent.alerted.woken, ?_, ?_⟩,
    consistent.recorded⟩
  · intro other otherUsed isStarted
    by_cases here : other = proc
    · subst here
      exact placed
    · simp only [Function.update_of_ne here] at isStarted
      exact consistent.linked.placed other otherUsed isStarted
  · intro other otherUsed notHit positive
    by_cases here : other = proc
    · subst here
      rcases fresh.2 notHit with ⟨quiet, unused⟩
      simp only [Function.update_self, quiet]
      exact ⟨trivial, unused, fresh.1⟩
    · simp only [Function.update_of_ne here] at positive ⊢
      exact consistent.alerted.activating other otherUsed notHit positive
  · intro other otherUsed isOther
    by_cases here : other = proc
    · subst here
      simp at isOther
    · simp only [Function.update_of_ne here] at isOther ⊢
      exact consistent.alerted.fresh other otherUsed isOther

theorem Consistent.startProc
    (consistent : Consistent root state)
    (unstarted : Unstarted root state proc) :
    Consistent root (ProcTree.startProc root proc state) := by
  unfold ProcTree.startProc
  cases known : state.parent proc with
  | none =>
      have adopted :=
        consistent.setParentToThis consistent.living.root unstarted known
      refine adopted.markStarted unstarted ?_
      simp [ProcTree.setParentToThis]
  | some parent =>
      refine consistent.markStarted unstarted ?_
      rw [known]
      rfl

/-- An activation, which is counted or of a process which was hit. -/
theorem Consistent.setInfo
    (consistent : Consistent root state)
    {info : ProcInfo}
    (zombie : info.state = .zombie ↔ (state.info proc).state = .zombie)
    {starting : Proc → Nat}
    {hit : Proc → Bool}
    (alerted :
      Alerted state.used state.started starting
        (Function.update state.info proc info) state.phase hit) :
    Consistent root
      { state with
        info := Function.update state.info proc info
        starting := starting
        hit := hit } := by
  refine ⟨consistent.linked, consistent.living, consistent.locked, ?_,
    consistent.asleep, consistent.counted, alerted, consistent.recorded⟩
  intro other otherUsed
  by_cases here : other = proc
  · subst here
    simp only [Function.update_self]
    rw [zombie]
    exact consistent.zombies other otherUsed
  · simp only [Function.update_of_ne here]
    exact consistent.zombies other otherUsed

/-- Whatever `kill` does to a process, it was hit. -/
theorem Alerted.setHit
    {used started : Proc → Bool}
    {starting : Proc → Nat}
    {info : Proc → ProcInfo}
    {phase : Proc → Phase}
    {hit : Proc → Bool}
    (alerted : Alerted used started starting info phase hit)
    (data : ProcInfo) :
    Alerted used started starting (Function.update info proc data) phase
      (Function.update hit proc true) := by
  constructor
  · intro other otherUsed isKilled
    by_cases here : other = proc
    · subst here
      exact Function.update_self ..
    · rw [Function.update_of_ne here] at isKilled ⊢
      exact alerted.killed other otherUsed isKilled
  · intro other otherUsed waits queued
    by_cases here : other = proc
    · subst here
      exact Function.update_self ..
    · rw [Function.update_of_ne here] at queued ⊢
      exact alerted.woken other otherUsed waits queued
  · intro other otherUsed notHit positive
    by_cases here : other = proc
    · subst here
      simp at notHit
    · rw [Function.update_of_ne here] at notHit ⊢
      exact alerted.activating other otherUsed notHit positive
  · intro other otherUsed unstarted
    rcases alerted.fresh other otherUsed unstarted with ⟨user, quiet⟩
    refine ⟨user, fun notHit => ?_⟩
    by_cases here : other = proc
    · subst here
      simp at notHit
    · rw [Function.update_of_ne here] at notHit ⊢
      exact quiet notHit

theorem Consistent.setKilled
    (consistent : Consistent root state)
    (proc : Proc) :
    Consistent root (ProcTree.setKilled proc state) := by
  refine consistent.setInfo ?_ (consistent.alerted.setHit _)
  rfl

theorem Consistent.alert
    (consistent : Consistent root state)
    (proc : Proc) :
    Consistent root (ProcTree.alert proc state) :=
  consistent.setInfo (activated_zombie true _)
    (consistent.alerted.setHit _)

theorem Consistent.finishStart
    (consistent : Consistent root state)
    (positive : 0 < state.starting proc) :
    Consistent root (ProcTree.finishStart proc state) := by
  refine consistent.setInfo (activated_zombie false _) ?_
  have alerted := consistent.alerted
  constructor
  · intro other otherUsed isKilled
    apply alerted.killed other otherUsed
    by_cases here : other = proc
    · subst here
      simpa using isKilled
    · simpa [here] using isKilled
  · intro other otherUsed waits queued
    by_cases here : other = proc
    · subst here
      -- A process which was not hit does not wait before its start is over.
      by_contra notHit
      have known :=
        alerted.activating other otherUsed (by simpa using notHit) positive
      rw [known.2.2] at waits
      cases waits
    · rw [Function.update_of_ne here] at queued
      exact alerted.woken other otherUsed waits queued
  · intro other otherUsed notHit stillPositive
    by_cases here : other = proc
    · subst here
      have known := alerted.activating other otherUsed notHit positive
      rw [Function.update_self, known.1] at stillPositive
      exact absurd stillPositive (Nat.lt_irrefl 0)
    · rw [Function.update_of_ne here] at stillPositive ⊢
      rw [Function.update_of_ne here]
      exact alerted.activating other otherUsed notHit stillPositive
  · intro other otherUsed unstarted
    rcases alerted.fresh other otherUsed unstarted with ⟨user, quiet⟩
    refine ⟨user, fun notHit => ?_⟩
    by_cases here : other = proc
    · subst here
      rw [(quiet notHit).1] at positive
      exact absurd positive (Nat.lt_irrefl 0)
    · rw [Function.update_of_ne here, Function.update_of_ne here]
      exact quiet notHit

theorem Consistent.createProc
    (consistent : Consistent root state)
    (free : state.plock = none)
    (unused : state.used proc = false)
    (notRoot : proc ≠ root) :
    Consistent root (ProcTree.createProc proc state) := by
  have notParent :
      ∀ other, state.used other = true →
        state.parent other ≠ some proc := by
    intro other otherUsed isParent
    have lives := consistent.living.parents other proc otherUsed isParent
    rw [unused] at lives
    cases lives.1
  have nowhere : ∀ owner, proc ∉ state.children owner := by
    intro owner member
    have known := ((consistent.linked.member proc owner).mp member).1
    rw [unused] at known
    cases known
  refine ⟨⟨?_, ?_, ?_, ?_⟩, ⟨?_, ?_⟩, ?_, ?_, ⟨?_, ?_⟩, ?_,
    ⟨?_, ?_, ?_, ?_⟩, ⟨consistent.recorded.matched, ?_⟩⟩
  · intro other owner
    simp only [ProcTree.createProc]
    by_cases here : other = proc
    · subst here
      rw [Function.update_self, Function.update_self]
      refine iff_of_false ?_ (by simp)
      by_cases isOwner : owner = other
      · subst isOwner
        simp
      · rw [Function.update_of_ne isOwner]
        exact nowhere owner
    · rw [Function.update_of_ne here, Function.update_of_ne here]
      by_cases isOwner : owner = proc
      · subst isOwner
        rw [Function.update_self]
        refine iff_of_false List.not_mem_nil ?_
        rintro ⟨otherUsed, -, isParent⟩
        exact notParent other otherUsed isParent
      · rw [Function.update_of_ne isOwner]
        exact consistent.linked.member other owner
  · intro owner
    simp only [ProcTree.createProc]
    by_cases isOwner : owner = proc
    · subst isOwner
      simp
    · rw [Function.update_of_ne isOwner]
      exact consistent.linked.nodup owner
  · simpa [ProcTree.createProc, notRoot.symm] using
      consistent.linked.rooted
  · intro other otherUsed isStarted
    simp only [ProcTree.createProc] at otherUsed isStarted ⊢
    by_cases here : other = proc
    · subst here
      simp at isStarted
    · rw [Function.update_of_ne here] at otherUsed isStarted ⊢
      exact consistent.linked.placed other otherUsed isStarted
  · simpa [ProcTree.createProc, notRoot.symm] using
      consistent.living.root
  · intro other owner otherUsed isParent
    simp only [ProcTree.createProc] at otherUsed isParent ⊢
    by_cases here : other = proc
    · subst here
      simp at isParent
    · rw [Function.update_of_ne here] at otherUsed isParent
      have isOwner : owner ≠ proc := by
        rintro rfl
        exact notParent other otherUsed isParent
      rw [Function.update_of_ne isOwner, Function.update_of_ne isOwner]
      exact consistent.living.parents other owner otherUsed isParent
  · intro other otherUsed
    simp only [ProcTree.createProc] at otherUsed ⊢
    by_cases here : other = proc
    · subst here
      simp [free, Phase.locks]
    · rw [Function.update_of_ne here] at otherUsed ⊢
      exact consistent.locked other otherUsed
  · intro other otherUsed
    simp only [ProcTree.createProc] at otherUsed ⊢
    by_cases here : other = proc
    · subst here
      simp
    · rw [Function.update_of_ne here] at otherUsed ⊢
      rw [Function.update_of_ne here]
      exact consistent.zombies other otherUsed
  · intro other otherUsed
    simp only [ProcTree.createProc] at otherUsed ⊢
    by_cases here : other = proc
    · subst here
      rw [Function.update_self]
      rfl
    · rw [Function.update_of_ne here] at otherUsed ⊢
      exact consistent.asleep.balanced other otherUsed
  · intro other otherUsed
    simp only [ProcTree.createProc] at otherUsed ⊢
    by_cases here : other = proc
    · subst here
      simp [initSem]
    · simp only [Function.update_of_ne here] at otherUsed ⊢
      exact consistent.asleep.sleeplist other otherUsed
  · intro other otherUsed live
    simp only [ProcTree.createProc] at otherUsed live ⊢
    by_cases here : other = proc
    · subst here
      simp [dueChildren, credit, owed, initSem, Phase.held, notRoot]
    · simp only [Function.update_of_ne here] at otherUsed live
      have counted := consistent.counted other otherUsed live
      have others :
          ∀ child ∈ state.children other,
            (Function.update state.phase proc .user child).due =
              (state.phase child).due := by
        intro child member
        have different : child ≠ proc := by
          rintro rfl
          exact nowhere other member
        rw [Function.update_of_ne different]
      have sameDue :
          (state.children other).countP
              (fun child =>
                (Function.update state.phase proc .user child).due) =
            dueChildren state.children state.phase other := by
        apply List.countP_congr
        intro child member
        rw [others child member]
      unfold dueChildren
      simp only [Function.update_of_ne here]
      rw [sameDue, counted]
      simp [credit, owed, free, here]
  · intro other otherUsed isKilled
    simp only [ProcTree.createProc] at otherUsed isKilled ⊢
    by_cases here : other = proc
    · subst here
      simp at isKilled
    · rw [Function.update_of_ne here] at otherUsed isKilled ⊢
      exact consistent.alerted.killed other otherUsed isKilled
  · intro other otherUsed waits queued
    simp only [ProcTree.createProc] at otherUsed waits queued ⊢
    by_cases here : other = proc
    · subst here
      simp at waits
    · rw [Function.update_of_ne here] at otherUsed waits queued ⊢
      exact consistent.alerted.woken other otherUsed waits queued
  · intro other otherUsed notHit positive
    simp only [ProcTree.createProc] at otherUsed notHit positive ⊢
    by_cases here : other = proc
    · subst here
      rw [Function.update_self, decide_eq_true positive] at notHit
      cases notHit
    · simp only [Function.update_of_ne here] at otherUsed notHit ⊢
      exact consistent.alerted.activating other otherUsed notHit positive
  · intro other otherUsed unstarted
    simp only [ProcTree.createProc] at otherUsed unstarted ⊢
    by_cases here : other = proc
    · subst here
      simp only [Function.update_self]
      refine ⟨trivial, fun notHit => ⟨?_, trivial⟩⟩
      have none := of_decide_eq_false notHit
      omega
    · simp only [Function.update_of_ne here] at otherUsed unstarted ⊢
      exact consistent.alerted.fresh other otherUsed unstarted
  · intro other
    simp only [ProcTree.createProc]
    by_cases here : other = proc
    · subst here
      rw [consistent.recorded.pending]
      simp [unused, Phase.live]
    · simp only [Function.update_of_ne here]
      exact consistent.recorded.pending other

end Create

/-! ## Every run -/

section Runs

variable
    {Proc : Type}
    [DecidableEq Proc]
    {root : Proc}
    {state start finish : State Proc}

/-- A step keeps the invariant, and no assertion fails. -/
theorem perform_keeps
    (consistent : Consistent root state)
    {label : Label Proc}
    (allowed : Allowed root state label) :
    perform root state label = .error .overflow ∨
      ∃ outcome after,
        perform root state label = .ok (outcome, after) ∧
          Consistent root after := by
  have silent :
      ∀ {result : Except Stop (State Proc)},
        (result = .error .overflow ∨
          ∃ after, result = .ok after ∧ Consistent root after) →
        goesOn result = .error .overflow ∨
          ∃ outcome after,
            goesOn result = .ok (outcome, after) ∧
              Consistent root after := by
    rintro result (stopped | ⟨after, done, kept⟩)
    · left
      rw [stopped]
      rfl
    · right
      exact ⟨.nothing, after, by rw [done]; rfl, kept⟩
  cases label with
  | create proc =>
      exact Or.inr ⟨_, _, rfl,
        consistent.createProc allowed.1 allowed.2.1 allowed.2.2⟩
  | setParent this proc =>
      rcases allowed with ⟨-, ⟨runs, user⟩, unstarted, orphan⟩
      have live : (state.phase this).live = true := by
        rw [user]
        rfl
      exact Or.inr ⟨_, _, rfl,
        consistent.setParentToThis ⟨runs.1, live⟩ unstarted orphan⟩
  | start proc =>
      exact Or.inr ⟨_, _, rfl, consistent.startProc allowed.2⟩
  | activate proc =>
      exact Or.inr ⟨_, _, rfl, consistent.finishStart allowed⟩
  | waitCheck this =>
      exact Or.inr ⟨_, _, rfl, consistent.waitCheck allowed.2⟩
  | waitSleep this => exact silent (consistent.waitSleep allowed)
  | waitResume this =>
      rcases allowed with ⟨runs, up, waits⟩
      rcases consistent.waitResume runs waits with
        ⟨outcome, after, done, kept, -⟩
      exact Or.inr ⟨outcome, after, done, kept⟩
  | waitReap this =>
      rcases consistent.waitReap allowed.1 allowed.2 with
        ⟨_, _, _, _, kept⟩
      exact Or.inr ⟨_, _, rfl, kept⟩
  | exitBegin this code =>
      exact Or.inr ⟨_, _, rfl,
        consistent.exitBegin allowed.1 allowed.2.1 allowed.2.2 code⟩
  | exitPostRoot this =>
      rcases allowed with ⟨runs, times, exiting⟩
      exact silent (consistent.exitPostRoot runs exiting)
  | exitPostParent this =>
      exact silent (consistent.exitPostParent allowed)
  | exitEnd this => exact Or.inr ⟨_, _, rfl, consistent.exitEnd allowed⟩
  | setKilled proc =>
      exact Or.inr ⟨_, _, rfl, consistent.setKilled proc⟩
  | alert proc => exact Or.inr ⟨_, _, rfl, consistent.alert proc⟩

theorem run_consistent
    {labels : List (Label Proc)}
    (initial : Initial root start)
    (run : Run (Takes (step root)) (Allowed root) start labels finish) :
    Consistent root finish := by
  refine run.invariant initial.consistent ?_
  intro source label target consistent allowed taken
  unfold Takes step at taken
  rcases perform_keeps consistent allowed with
    stopped | ⟨outcome, after, done, kept⟩
  · rw [stopped] at taken
    cases taken
  · rw [done] at taken
    cases taken
    exact kept

/-- Where `wait` returns -1. -/
theorem Consistent.failed
    (consistent : Consistent root state)
    {label : Label Proc}
    (allowed : Allowed root state label)
    {after : State Proc}
    (failed : perform root state label = .ok (.failed, after)) :
    ∃ this,
      label = .waitCheck this ∧ state.children this = [] ∨
        label = .waitResume this ∧ state.hit this = true := by
  have loud :
      ∀ {result : Except Stop (State Proc)},
        goesOn result ≠ .ok (.failed, after) := by
    intro result isFailed
    cases result with
    | error stop => cases isFailed
    | ok next => cases isFailed
  cases label with
  | waitCheck this =>
      refine ⟨this, Or.inl ⟨rfl, ?_⟩⟩
      cases known : state.children this with
      | nil => rfl
      | cons child others =>
          simp [perform, ProcTree.waitCheck, known] at failed
  | waitResume this =>
      rcases allowed with ⟨runs, up, waits⟩
      rcases consistent.waitResume runs waits with
        ⟨outcome, next, done, -, hit⟩
      simp only [perform, done] at failed
      cases failed
      exact ⟨this, Or.inr ⟨rfl, hit rfl⟩⟩
  | waitReap this =>
      rcases consistent.waitReap allowed.1 allowed.2 with
        ⟨child, -, -, reaped, -⟩
      simp only [perform] at failed
      rw [Except.ok.inj failed] at reaped
      cases reaped
  | waitSleep this => exact absurd failed loud
  | exitPostRoot this => exact absurd failed loud
  | exitPostParent this => exact absurd failed loud
  | create proc => cases failed
  | setParent this proc => cases failed
  | start proc => cases failed
  | activate proc => cases failed
  | exitBegin this code => cases failed
  | exitEnd this => cases failed
  | setKilled proc => cases failed
  | alert proc => cases failed

/--
In every interleaving: a started process is listed once, by its parent alone;
the exited children of a process are the tokens of its `childexit`, with the
token of its `wait` and the posts which `exit` still owes to `root_proc`; a
`wait` whose `wait_sem` has succeeded reaps a zombie child, with the pid and
the exit code of the child; every reaping is of one exit; `wait` returns -1
only to a caller without children, or which `kill` has hit; and no assertion
fails.
-/
theorem children_reaped_once
    {labels : List (Label Proc)}
    (initial : Initial root start)
    (run : Run (Takes (step root)) (Allowed root) start labels finish) :
    (∀ proc, finish.used proc = true → finish.started proc = true →
      proc ≠ root →
        ∃ parent,
          finish.parent proc = some parent ∧
            (finish.children parent).count proc = 1 ∧
            ∀ other, proc ∈ finish.children other → other = parent) ∧
    (∀ proc, finish.used proc = true → (finish.phase proc).live = true →
      dueChildren finish.children finish.phase proc =
        credit finish.childexit finish.phase proc +
          owed root finish.phase finish.plock proc) ∧
    (∀ this, Allowed root finish (.waitReap this) →
      ∃ child after,
        finish.parent child = some this ∧
          (finish.info child).state = .zombie ∧
          perform root finish (.waitReap this) =
            .ok (.reaped child (finish.pid child) (finish.exitcode child),
              after)) ∧
    Matched finish.history ∧
    (∀ label after, Allowed root finish label →
      perform root finish label = .ok (.failed, after) →
        ∃ this,
          label = .waitCheck this ∧ finish.children this = [] ∨
            label = .waitResume this ∧ finish.hit this = true) ∧
    ∀ label, Allowed root finish label →
      ∀ stop, perform root finish label = .error stop →
        stop = .overflow := by
  have consistent := run_consistent initial run
  refine ⟨?_, consistent.counted, ?_, consistent.recorded.matched, ?_, ?_⟩
  · intro proc isUsed isStarted notRoot
    rcases Option.isSome_iff_exists.mp
      (consistent.linked.placed proc isUsed isStarted) with
      ⟨parent, isParent⟩
    refine ⟨parent, isParent, ?_, ?_⟩
    · apply List.count_eq_one_of_mem (consistent.linked.nodup parent)
      exact (consistent.linked.member proc parent).mpr
        ⟨isUsed, notRoot, isParent⟩
    · intro other member
      have isOther := ((consistent.linked.member proc other).mp member).2.2
      rw [isParent] at isOther
      exact (Option.some.inj isOther).symm
  · intro this allowed
    rcases consistent.waitReap allowed.1 allowed.2 with
      ⟨child, member, isZombie, reaped, -⟩
    refine ⟨child, (waitReap this finish).2,
      ((consistent.linked.member child this).mp member).2.2, isZombie, ?_⟩
    rw [← reaped]
    rfl
  · intro label after allowed failed
    exact consistent.failed allowed failed
  · intro label allowed stop stopped
    rcases perform_keeps consistent allowed with
      overflowed | ⟨outcome, after, done, -⟩
    · rw [overflowed] at stopped
      cases stopped
      rfl
    · rw [done] at stopped
      cases stopped

end Runs

/-! ## A grandchild goes over to the root process -/

section Decide

variable
    {Proc : Type}
    [DecidableEq Proc]
    {root : Proc}
    {state : State Proc}

instance (proc : Proc) : Decidable (Runs state proc) :=
  inferInstanceAs (Decidable (_ ∧ _ ∧ _))

instance (proc : Proc) (phase : Phase) : Decidable (At state proc phase) :=
  inferInstanceAs (Decidable (_ ∧ _))

instance (proc : Proc) : Decidable (Unstarted root state proc) :=
  inferInstanceAs (Decidable (_ ∧ _ ∧ _))

instance (label : Label Proc) : Decidable (Allowed root state label) :=
  match label with
  | .create _ => inferInstanceAs (Decidable (_ ∧ _ ∧ _))
  | .setParent _ _ => inferInstanceAs (Decidable (_ ∧ _ ∧ _ ∧ _))
  | .start _ => inferInstanceAs (Decidable (_ ∧ _))
  | .activate _ => inferInstanceAs (Decidable (_ < _))
  | .waitCheck _ => inferInstanceAs (Decidable (_ ∧ _))
  | .waitSleep this => inferInstanceAs (Decidable (At state this _))
  | .waitResume this =>
      decidable_of_iff
        (At state this (.waiting false) ∨ At state this (.waiting true))
        (by simp [Allowed, At, and_or_left])
  | .waitReap _ => inferInstanceAs (Decidable (_ ∧ _))
  | .exitBegin _ _ => inferInstanceAs (Decidable (_ ∧ _ ∧ _))
  | .exitPostRoot this =>
      decidable_of_iff
        (Runs state this ∧
          At state this (.exiting ((state.phase this).remaining - 1 + 1)))
        (by
          constructor
          · rintro ⟨runs, -, exiting⟩
            exact ⟨runs, _, exiting⟩
          · rintro ⟨runs, times, exiting⟩
            refine ⟨runs, runs, ?_⟩
            rw [exiting]
            simp [Phase.remaining])
  | .exitPostParent this => inferInstanceAs (Decidable (At state this _))
  | .exitEnd this => inferInstanceAs (Decidable (At state this _))
  | .setKilled _ => isTrue trivial
  | .alert _ => isTrue trivial

end Decide

/-- Three addresses, of which `root_proc` has the first. -/
def onlyRoot : State (Fin 3) where
  used := fun proc => decide (proc = 0)
  pid := fun _ => 1
  exitcode := fun _ => 0
  info := fun _ => ⟨false, .running⟩
  parent := fun _ => some 0
  children := fun _ => []
  childexit := fun _ => initSem 0
  pmanager := ⟨1, []⟩
  plock := none
  phase := fun _ => .user
  started := fun _ => true
  starting := fun _ => 0
  hit := fun _ => false
  history := []

theorem initial_onlyRoot : Initial 0 onlyRoot := by
  constructor <;> intros <;> rfl

/-- The child exits after the grandchild, while `root_proc` waits. -/
def orphaned : List (Label (Fin 3)) :=
  [.create 1, .setParent 0 1, .start 1, .activate 1,
    .create 2, .setParent 1 2, .start 2, .activate 2,
    .waitCheck 0, .waitSleep 0,
    .exitBegin 2 5, .exitPostParent 2, .exitEnd 2,
    .exitBegin 1 7, .exitPostRoot 1, .setKilled 0, .exitPostParent 1,
    .exitEnd 1, .waitResume 0]

theorem children_reaped_once_orphaned :
    ∃ state : State (Fin 3),
      Run (Takes (step 0)) (Allowed 0) onlyRoot orphaned state ∧
        state.children 0 = [2, 1] ∧
        credit state.childexit state.phase 0 = 2 ∧
        ∃ child after,
          state.parent child = some 0 ∧
            (state.info child).state = .zombie ∧
            perform 0 state (.waitReap 0) =
              .ok (.reaped child (state.pid child) (state.exitcode child),
                after) := by
  have computed :
      ((executeChecked (step 0)
        (fun state label => decide (Allowed 0 state label))
        onlyRoot orphaned).map
          fun state =>
            decide
              (state.children 0 = [2, 1] ∧
                credit state.childexit state.phase 0 = 2 ∧
                Allowed 0 state (.waitReap 0))) = some true := by
    decide +kernel
  rcases Option.map_eq_some_iff.mp computed with ⟨state, executed, facts⟩
  have run :
      Run (Takes (step 0)) (Allowed 0) onlyRoot orphaned state :=
    Run.of_executeChecked (fun _ _ => of_decide_eq_true) executed
  rcases of_decide_eq_true facts with ⟨listed, tokens, allowed⟩
  exact ⟨state, run, listed, tokens,
    (children_reaped_once initial_onlyRoot run).2.2.1 0 allowed⟩

end FudanOS.Kernel.ProcTree
