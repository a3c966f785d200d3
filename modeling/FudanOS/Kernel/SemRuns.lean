import FudanOS.Kernel.Sem
import FudanOS.Library.Runs

/-!
# Runs of one semaphore

Any number of threads wait, post and get on one semaphore; each part of a
function runs under `sem->lock`.  A sleeper may go on once it is awake: a post
wakes it, and so does an alert, which may come at any time and stands also
for `sched` returning at once to a killed process.

Beside the semaphore stands what a token count needs: how many posts there
were, how many tokens were taken, which threads were granted one and have not
gone on yet, and the tickets which the threads drew when they enqueued.
-/

namespace FudanOS.Kernel.SemRuns

open FudanOS.Library.Runs
open FudanOS.Kernel.Sem

/-- `WaitData`, and whether its thread is awake. -/
structure WaitData where
  up : Bool
  awake : Bool
  deriving DecidableEq

/-- The semaphore, the threads inside `_wait_sem` and the token count. -/
structure State (Thread : Type) where
  sem : Semaphore Thread
  waits : Thread → Option WaitData
  /-- The number of posts. -/
  posts : Nat
  /-- The number of tokens which waits and gets have returned with. -/
  taken : Nat
  /-- The threads whose `up` is set. -/
  pending : List Thread
  /-- The ticket of the last wait of a thread which slept. -/
  ticket : Thread → Nat
  clock : Nat
  /-- The tickets of the granted waits, the last one first. -/
  grants : List Nat

/-- The parts of the functions which run under the lock. -/
inductive Label (Thread : Type) where
  | wait (thread : Thread)
  | resume (thread : Thread)
  | alert (thread : Thread)
  | post
  | get
  | getAll
  | postAll

section Steps

variable
    {Thread : Type}
    [DecidableEq Thread]

def State.init (val : Nat) : State Thread where
  sem := initSem val
  waits := fun _ => none
  posts := 0
  taken := 0
  pending := []
  ticket := fun _ => 0
  clock := 0
  grants := []

/-- `_wait_sem` until it returns or sleeps. -/
def wait (thread : Thread) (state : State Thread) :
    Except Stop (State Thread) :=
  match waitSem thread state.sem with
  | .error stop => .error stop
  | .ok (true, sem) =>
      .ok { state with sem := sem, taken := state.taken + 1 }
  | .ok (false, sem) =>
      .ok { state with
        sem := sem
        waits := Function.update state.waits thread (some ⟨false, false⟩)
        ticket := Function.update state.ticket thread state.clock
        clock := state.clock + 1 }

/-- `_wait_sem` after `sched` has returned. -/
def resume (thread : Thread) (state : State Thread) :
    Except Stop (State Thread) :=
  match state.waits thread with
  | none => .ok state
  | some data =>
      match resumeSem thread data.up state.sem with
      | .error stop => .error stop
      | .ok sem =>
          .ok { state with
            sem := sem
            waits := Function.update state.waits thread none
            taken := if data.up then state.taken + 1 else state.taken
            pending := state.pending.erase thread }

/-- A sleeper is woken by something else than a post. -/
def alert (thread : Thread) (state : State Thread) : State Thread :=
  match state.waits thread with
  | none => state
  | some data =>
      { state with
        waits :=
          Function.update state.waits thread
            (some { data with awake := true }) }

/-- `_post_sem(sem)` -/
def post (state : State Thread) : Except Stop (State Thread) :=
  match postSem state.sem with
  | .error stop => .error stop
  | .ok (sem, none) =>
      .ok { state with sem := sem, posts := state.posts + 1 }
  | .ok (sem, some thread) =>
      .ok { state with
        sem := sem
        waits := Function.update state.waits thread (some ⟨true, true⟩)
        posts := state.posts + 1
        pending := thread :: state.pending
        grants := state.ticket thread :: state.grants }

/-- `_get_sem(sem)` -/
def get (state : State Thread) : Bool × State Thread :=
  match getSem state.sem with
  | (true, sem) =>
      (true, { state with sem := sem, taken := state.taken + 1 })
  | (false, sem) => (false, { state with sem := sem })

/-- `get_all_sem(sem)` -/
def getAll (state : State Thread) : Int × State Thread :=
  match getAllSem state.sem with
  | (ret, sem) =>
      (ret, { state with sem := sem, taken := state.taken + ret.toNat })

/-- The loop of `post_all_sem`, with the value of `ret`. -/
def postAllLoop : Nat → Int → State Thread →
    Except Stop (Int × State Thread)
  | 0, _, _ => .error .unfinished
  | fuel + 1, ret, state =>
      match post state with
      | .error stop => .error stop
      | .ok state =>
          match increment ret with
          | .error stop => .error stop
          | .ok ret =>
              match get state with
              | (true, state) => .ok (ret, state)
              | (false, state) => postAllLoop fuel ret state

/-- `post_all_sem(sem)` with a bound on the turns of its loop. -/
def postAll (fuel : Nat) (state : State Thread) :
    Except Stop (Int × State Thread) :=
  postAllLoop fuel (-1) state

/-- One part of a function. -/
def step (state : State Thread) : Label Thread → Except Stop (State Thread)
  | .wait thread => wait thread state
  | .resume thread => resume thread state
  | .alert thread => .ok (alert thread state)
  | .post => post state
  | .get => .ok (get state).2
  | .getAll => .ok (getAll state).2
  | .postAll =>
      match postAll (state.sem.sleeplist.length + 1) state with
      | .ok (_, state) => .ok state
      | .error stop => .error stop

/-- A thread waits once at a time, and goes on when it is awake. -/
def Allowed (state : State Thread) : Label Thread → Prop
  | .wait thread => state.waits thread = none
  | .resume thread =>
      ∃ data, state.waits thread = some data ∧ data.awake = true
  | _ => True

end Steps

/-! ## The invariant -/

variable
    {Thread : Type}
    {state target : State Thread}
    {val : Nat}

/-- What holds whenever the lock is free. -/
structure Valid (val : Nat) (state : State Thread) : Prop where
  balanced : Sem.Balanced state.sem
  nodup : state.sem.sleeplist.Nodup
  asleep :
    ∀ thread,
      thread ∈ state.sem.sleeplist ↔
        ∃ data, state.waits thread = some data ∧ data.up = false
  pendingNodup : state.pending.Nodup
  granted :
    ∀ thread,
      thread ∈ state.pending ↔
        ∃ data, state.waits thread = some data ∧ data.up = true
  tokens :
    (val : Int) + state.posts =
      max state.sem.val 0 + state.taken + state.pending.length
  queued :
    state.sem.sleeplist.Pairwise fun later earlier =>
      state.ticket earlier < state.ticket later
  drawn : ∀ thread ∈ state.sem.sleeplist, state.ticket thread < state.clock
  ordered : state.grants.Pairwise fun later earlier => earlier < later
  served :
    ∀ grant ∈ state.grants,
      grant < state.clock ∧
        ∀ thread ∈ state.sem.sleeplist, grant < state.ticket thread

theorem valid_init :
    Valid val (State.init val : State Thread) := by
  constructor <;> simp [State.init, initSem, Sem.Balanced]

section Preserved

variable [DecidableEq Thread]

omit [DecidableEq Thread] in
/-- A wait which finds a token, and a get. -/
theorem Valid.take
    (valid : Valid val state)
    (positive : 0 < state.sem.val) :
    Valid val
      { state with
        sem := ⟨state.sem.val - 1, state.sem.sleeplist⟩
        taken := state.taken + 1 } := by
  have balanced := valid.balanced
  have tokens := valid.tokens
  unfold Sem.Balanced at balanced
  refine ⟨?_, valid.nodup, valid.asleep, valid.pendingNodup, valid.granted,
    ?_, valid.queued, valid.drawn, valid.ordered, valid.served⟩
  · unfold Sem.Balanced
    simp only
    omega
  · push_cast
    omega

/-- A wait which goes to sleep. -/
theorem Valid.enqueue
    (valid : Valid val state)
    {thread : Thread}
    (outside : state.waits thread = none)
    (empty : state.sem.val ≤ 0) :
    Valid val
      { state with
        sem := ⟨state.sem.val - 1, thread :: state.sem.sleeplist⟩
        waits := Function.update state.waits thread (some ⟨false, false⟩)
        ticket := Function.update state.ticket thread state.clock
        clock := state.clock + 1 } := by
  have balanced := valid.balanced
  have tokens := valid.tokens
  unfold Sem.Balanced at balanced
  have notAsleep : thread ∉ state.sem.sleeplist := by
    rw [valid.asleep]
    rintro ⟨data, known, -⟩
    rw [outside] at known
    cases known
  have notPending : thread ∉ state.pending := by
    rw [valid.granted]
    rintro ⟨data, known, -⟩
    rw [outside] at known
    cases known
  have others :
      ∀ other ∈ state.sem.sleeplist,
        Function.update state.ticket thread state.clock other =
          state.ticket other := by
    intro other member
    apply Function.update_of_ne
    rintro rfl
    exact notAsleep member
  constructor
  · unfold Sem.Balanced
    simp only [List.length_cons]
    omega
  · exact List.nodup_cons.mpr ⟨notAsleep, valid.nodup⟩
  · intro other
    by_cases same : other = thread
    · subst same
      simp
    · simp only [List.mem_cons, same, false_or,
        Function.update_of_ne same]
      exact valid.asleep other
  · exact valid.pendingNodup
  · intro other
    by_cases same : other = thread
    · subst same
      simp [notPending]
    · simp only [Function.update_of_ne same]
      exact valid.granted other
  · simp only
    omega
  · refine List.pairwise_cons.mpr ⟨?_, ?_⟩
    · intro other member
      simp only [others other member, Function.update_self]
      exact valid.drawn other member
    · refine valid.queued.imp_of_mem ?_
      intro later earlier laterMember earlierMember before
      simp only [others later laterMember, others earlier earlierMember]
      exact before
  · intro other member
    simp only
    rcases List.mem_cons.mp member with rfl | old
    · rw [Function.update_self]
      exact Nat.lt_succ_self _
    · rw [others other old]
      exact Nat.lt_succ_of_lt (valid.drawn other old)
  · exact valid.ordered
  · intro grant member
    rcases valid.served grant member with ⟨before, least⟩
    refine ⟨Nat.lt_succ_of_lt before, ?_⟩
    intro other otherMember
    simp only
    rcases List.mem_cons.mp otherMember with rfl | old
    · rw [Function.update_self]
      exact before
    · rw [others other old]
      exact least other old

omit [DecidableEq Thread] in
/-- A post without sleepers leaves a token. -/
theorem Valid.store
    (valid : Valid val state)
    (enough : 0 ≤ state.sem.val)
    (nobody : state.sem.sleeplist = []) :
    Valid val
      { state with
        sem := ⟨state.sem.val + 1, []⟩
        posts := state.posts + 1 } := by
  have tokens := valid.tokens
  have asleep := valid.asleep
  have served := valid.served
  rw [nobody] at asleep served
  refine ⟨?_, List.nodup_nil, asleep, valid.pendingNodup, valid.granted, ?_,
    List.Pairwise.nil, ?_, valid.ordered, served⟩
  · unfold Sem.Balanced
    simp only [List.length_nil]
    omega
  · push_cast
    omega
  · intro thread member
    cases member

/-- A post grants its token to the oldest sleeper. -/
theorem Valid.grant
    (valid : Valid val state)
    {front : List Thread}
    {thread : Thread}
    (negative : state.sem.val < 0)
    (split : state.sem.sleeplist = front ++ [thread]) :
    Valid val
      { state with
        sem := ⟨state.sem.val + 1, front⟩
        waits := Function.update state.waits thread (some ⟨true, true⟩)
        posts := state.posts + 1
        pending := thread :: state.pending
        grants := state.ticket thread :: state.grants } := by
  have balanced := valid.balanced
  have tokens := valid.tokens
  have nodup := valid.nodup
  have queued := valid.queued
  have drawn := valid.drawn
  have served := valid.served
  have asleep := valid.asleep
  unfold Sem.Balanced at balanced
  rw [split] at balanced nodup queued drawn served asleep
  have member : thread ∈ front ++ [thread] := by simp
  have notFront : thread ∉ front := by
    intro early
    exact (List.nodup_append.mp nodup).2.2 thread early thread
      List.mem_cons_self rfl
  have notPending : thread ∉ state.pending := by
    rw [valid.granted]
    rintro ⟨data, known, isUp⟩
    rcases (asleep thread).mp member with ⟨other, otherKnown, notUp⟩
    rw [known] at otherKnown
    cases otherKnown
    rw [isUp] at notUp
    cases notUp
  rcases List.pairwise_append.mp queued with ⟨frontQueued, -, older⟩
  constructor
  · unfold Sem.Balanced
    simp only [List.length_append, List.length_singleton] at balanced ⊢
    omega
  · exact (List.nodup_append.mp nodup).1
  · intro other
    by_cases same : other = thread
    · subst same
      simp [notFront]
    · simp only [Function.update_of_ne same]
      rw [← asleep other]
      simp [same]
  · exact List.nodup_cons.mpr ⟨notPending, valid.pendingNodup⟩
  · intro other
    by_cases same : other = thread
    · subst same
      simp
    · simp only [List.mem_cons, same, false_or,
        Function.update_of_ne same]
      exact valid.granted other
  · simp only [List.length_cons]
    push_cast
    omega
  · exact frontQueued
  · intro other early
    exact drawn other (List.mem_append_left _ early)
  · refine List.pairwise_cons.mpr ⟨?_, valid.ordered⟩
    intro grant earlier
    exact (served grant earlier).2 thread member
  · intro grant isGrant
    rcases List.mem_cons.mp isGrant with rfl | earlier
    · refine ⟨drawn thread member, ?_⟩
      intro other early
      exact older other early thread List.mem_cons_self
    · rcases served grant earlier with ⟨before, least⟩
      refine ⟨before, ?_⟩
      intro other early
      exact least other (List.mem_append_left _ early)

/-- A granted thread returns with its token. -/
theorem Valid.collect
    (valid : Valid val state)
    {thread : Thread}
    {data : WaitData}
    (known : state.waits thread = some data)
    (isUp : data.up = true) :
    Valid val
      { state with
        waits := Function.update state.waits thread none
        taken := state.taken + 1
        pending := state.pending.erase thread } := by
  have tokens := valid.tokens
  have pending : thread ∈ state.pending :=
    (valid.granted thread).mpr ⟨data, known, isUp⟩
  have notAsleep : thread ∉ state.sem.sleeplist := by
    rw [valid.asleep]
    rintro ⟨other, otherKnown, notUp⟩
    rw [known] at otherKnown
    cases otherKnown
    rw [isUp] at notUp
    cases notUp
  have length := List.length_erase_of_mem pending
  have positive := List.length_pos_of_mem pending
  refine ⟨valid.balanced, valid.nodup, ?_, valid.pendingNodup.erase _, ?_,
    ?_, valid.queued, valid.drawn, valid.ordered, valid.served⟩
  · intro other
    by_cases same : other = thread
    · subst same
      simp [notAsleep]
    · simp only [Function.update_of_ne same]
      exact valid.asleep other
  · intro other
    rw [valid.pendingNodup.mem_erase_iff]
    by_cases same : other = thread
    · subst same
      simp
    · simp only [Function.update_of_ne same]
      rw [← valid.granted other]
      simp [same]
  · simp only [length]
    push_cast
    omega

/-- A sleeper without a token leaves. -/
theorem Valid.leave
    (valid : Valid val state)
    {thread : Thread}
    (asleep : thread ∈ state.sem.sleeplist)
    (negative : state.sem.val < 0) :
    Valid val
      { state with
        sem := ⟨state.sem.val + 1, state.sem.sleeplist.erase thread⟩
        waits := Function.update state.waits thread none
        pending := state.pending.erase thread } := by
  have balanced := valid.balanced
  have tokens := valid.tokens
  unfold Sem.Balanced at balanced
  have length := List.length_erase_of_mem asleep
  have positive := List.length_pos_of_mem asleep
  have notPending : thread ∉ state.pending := by
    rw [valid.granted]
    rintro ⟨data, known, isUp⟩
    rcases (valid.asleep thread).mp asleep with ⟨other, otherKnown, notUp⟩
    rw [known] at otherKnown
    cases otherKnown
    rw [isUp] at notUp
    cases notUp
  have sublist :
      (state.sem.sleeplist.erase thread).Sublist state.sem.sleeplist :=
    List.erase_sublist
  rw [List.erase_of_not_mem notPending]
  constructor
  · unfold Sem.Balanced
    simp only [length]
    omega
  · exact valid.nodup.erase _
  · intro other
    rw [valid.nodup.mem_erase_iff]
    by_cases same : other = thread
    · subst same
      simp
    · simp only [Function.update_of_ne same]
      rw [← valid.asleep other]
      simp [same]
  · exact valid.pendingNodup
  · intro other
    by_cases same : other = thread
    · subst same
      simp [notPending]
    · simp only [Function.update_of_ne same]
      exact valid.granted other
  · simp only
    omega
  · exact valid.queued.sublist sublist
  · intro other member
    exact valid.drawn other (sublist.subset member)
  · exact valid.ordered
  · intro grant member
    rcases valid.served grant member with ⟨before, least⟩
    exact ⟨before, fun other early => least other (sublist.subset early)⟩

theorem Valid.alert
    (valid : Valid val state)
    (thread : Thread) :
    Valid val (alert thread state) := by
  unfold SemRuns.alert
  split
  · exact valid
  · rename_i data known
    have same :
        ∀ (flag : Bool) other,
          (∃ found,
            Function.update state.waits thread
                (some { data with awake := true }) other = some found ∧
              found.up = flag) ↔
          ∃ found, state.waits other = some found ∧ found.up = flag := by
      intro flag other
      by_cases here : other = thread
      · subst here
        simp [known]
      · simp only [Function.update_of_ne here]
    refine ⟨valid.balanced, valid.nodup, ?_, valid.pendingNodup, ?_,
      valid.tokens, valid.queued, valid.drawn, valid.ordered, valid.served⟩
    · intro other
      simp only
      rw [same]
      exact valid.asleep other
    · intro other
      simp only
      rw [same]
      exact valid.granted other

omit [DecidableEq Thread] in
theorem Valid.getAll
    (valid : Valid val state) :
    Valid val (getAll state).2 := by
  have balanced := valid.balanced
  have tokens := valid.tokens
  unfold Sem.Balanced at balanced
  unfold SemRuns.getAll getAllSem
  split_ifs with positive
  · refine ⟨?_, valid.nodup, valid.asleep, valid.pendingNodup,
      valid.granted, ?_, valid.queued, valid.drawn, valid.ordered,
      valid.served⟩
    · unfold Sem.Balanced
      simp only
      omega
    · simp only
      push_cast
      omega
  · exact valid

/-- What a post does. -/
theorem Valid.post_cases
    (valid : Valid val state) :
    (post state = .error .overflow ∧ state.sem.val = intMax) ∨
      ∃ after,
        post state = .ok after ∧ Valid val after ∧
          after.sem.val = state.sem.val + 1 ∧
          after.sem.sleeplist = state.sem.sleeplist.dropLast ∧
          (∀ thread ∈ state.sem.sleeplist,
            thread ∈ after.sem.sleeplist ∨
              after.waits thread = some ⟨true, true⟩) ∧
          ∀ thread, state.waits thread = some ⟨true, true⟩ →
            after.waits thread = some ⟨true, true⟩ := by
  rcases postSem_cases valid.balanced with
    ⟨stopped, full⟩ | ⟨enough, nobody, posted⟩ |
      ⟨front, thread, negative, split, posted⟩
  · left
    refine ⟨?_, full⟩
    unfold post
    rw [stopped]
  · right
    refine ⟨_, ?_, valid.store enough nobody, rfl, ?_, ?_, ?_⟩
    · unfold post
      rw [posted]
    · simp [nobody]
    · rw [nobody]
      simp
    · exact fun _ stays => stays
  · right
    refine ⟨_, ?_, valid.grant negative split, rfl, ?_, ?_, ?_⟩
    · unfold post
      rw [posted]
    · simp [split]
    · intro other member
      by_cases same : other = thread
      · subst same
        simp
      · rw [split] at member
        left
        simpa [same] using member
    · intro other stays
      by_cases same : other = thread
      · subst same
        simp
      · simpa [same] using stays

omit [DecidableEq Thread] in
theorem Valid.get_cases
    (valid : Valid val state) :
    (0 < state.sem.val ∧ (get state).1 = true ∧
        (get state).2.sem = ⟨state.sem.val - 1, state.sem.sleeplist⟩ ∧
        (get state).2.waits = state.waits ∧ Valid val (get state).2) ∨
      (state.sem.val ≤ 0 ∧ get state = (false, state)) := by
  unfold get
  rcases getSem_cases state.sem with
    ⟨positive, got⟩ | ⟨empty, missed⟩
  · left
    rw [got]
    exact ⟨positive, rfl, rfl, rfl, valid.take positive⟩
  · right
    rw [missed]
    exact ⟨empty, rfl⟩

/-- What `post_all_sem` leaves. -/
structure WakesAll (state : State Thread) (after : State Thread) : Prop where
  nobody : after.sem.sleeplist = []
  val : after.sem.val = max state.sem.val 0
  woken :
    ∀ thread ∈ state.sem.sleeplist,
      after.waits thread = some ⟨true, true⟩

/-- The loop of `post_all_sem` ends once it has posted for every sleeper. -/
theorem postAllLoop_spec
    {fuel : Nat}
    (ret : Int)
    (valid : Valid val state)
    (enough : state.sem.sleeplist.length < fuel) :
    match postAllLoop fuel ret state with
    | .ok (result, after) =>
        result = ret + state.sem.sleeplist.length + 1 ∧
          Valid val after ∧ WakesAll state after ∧
          ∀ thread, state.waits thread = some ⟨true, true⟩ →
            after.waits thread = some ⟨true, true⟩
    | .error stop =>
        stop = .overflow ∧
          (state.sem.val = intMax ∨
            intMax < ret + state.sem.sleeplist.length + 1) := by
  induction fuel generalizing ret state with
  | zero => omega
  | succ fuel ih =>
      have balanced := valid.balanced
      unfold Sem.Balanced at balanced
      unfold postAllLoop
      rcases valid.post_cases with
        ⟨stopped, full⟩ |
          ⟨middle, posted, validMiddle, valEq, listEq, woken, stays⟩
      · rw [stopped]
        exact ⟨rfl, Or.inl full⟩
      · rw [posted]
        simp only
        by_cases many : ret = intMax
        · rw [increment, if_pos many]
          refine ⟨rfl, Or.inr ?_⟩
          omega
        · rw [increment, if_neg many]
          simp only
          have length :
              middle.sem.sleeplist.length =
                state.sem.sleeplist.length - 1 := by
            rw [listEq, List.length_dropLast]
          rcases validMiddle.get_cases with
            ⟨positive, got, semEq, waitsEq, validAfter⟩ | ⟨empty, missed⟩
          · have none : state.sem.sleeplist = [] := by
              apply List.eq_nil_of_length_eq_zero
              omega
            have split : get middle = (true, (get middle).2) :=
              Prod.ext got rfl
            rw [split]
            refine ⟨?_, validAfter, ⟨?_, ?_, ?_⟩, ?_⟩
            · rw [none]
              simp
            · rw [semEq, listEq, none]
              rfl
            · rw [semEq, valEq]
              simp only
              omega
            · rw [none]
              simp
            · rw [waitsEq]
              exact stays
          · rw [missed]
            simp only
            have rest :=
              ih (ret + 1) validMiddle (by omega)
            generalize postAllLoop fuel (ret + 1) middle = outcome at *
            cases outcome with
            | error stop =>
                rcases rest with ⟨isOverflow, why⟩
                refine ⟨isOverflow, Or.inr ?_⟩
                unfold intMax at *
                omega
            | ok pair =>
                rcases pair with ⟨result, after⟩
                rcases rest with ⟨resultEq, validAfter, wakes, keeps⟩
                refine ⟨?_, validAfter, ⟨wakes.nobody, ?_, ?_⟩, ?_⟩
                · omega
                · rw [wakes.val]
                  omega
                · intro thread member
                  rcases woken thread member with still | granted
                  · exact wakes.woken thread still
                  · exact keeps thread granted
                · intro thread granted
                  exact keeps thread (stays thread granted)

/-- `post_all_sem` wakes every sleeper and leaves the tokens there were. -/
theorem postAll_spec
    {fuel : Nat}
    (valid : Valid val state)
    (enough : state.sem.sleeplist.length < fuel) :
    match postAll fuel state with
    | .ok (result, after) =>
        result = state.sem.sleeplist.length ∧ Valid val after ∧
          WakesAll state after
    | .error stop =>
        stop = .overflow ∧
          (state.sem.val = intMax ∨
            intMax < state.sem.sleeplist.length) := by
  have loop := postAllLoop_spec (-1) valid enough
  unfold postAll
  generalize postAllLoop fuel (-1) state = outcome at *
  cases outcome with
  | error stop =>
      rcases loop with ⟨isOverflow, why⟩
      refine ⟨isOverflow, why.imp_right ?_⟩
      intro many
      omega
  | ok pair =>
      rcases pair with ⟨result, after⟩
      rcases loop with ⟨resultEq, validAfter, wakes, -⟩
      exact ⟨by omega, validAfter, wakes⟩

/-- Every part of a function keeps the invariant and stops only by overflow. -/
theorem step_keeps
    {label : Label Thread}
    (valid : Valid val state)
    (allowed : Allowed state label) :
    match step state label with
    | .ok after => Valid val after
    | .error stop => stop = .overflow := by
  cases label with
  | wait thread =>
      simp only [step, wait]
      rcases waitSem_cases state.sem thread with
        ⟨stopped, -⟩ | ⟨positive, returned⟩ | ⟨empty, slept⟩
      · rw [stopped]
      · rw [returned]
        exact valid.take positive
      · rw [slept]
        exact valid.enqueue allowed empty
  | resume thread =>
      rcases allowed with ⟨data, known, -⟩
      simp only [step, resume, known]
      cases isUp : data.up with
      | true => exact valid.collect known isUp
      | false =>
          have asleep : thread ∈ state.sem.sleeplist :=
            (valid.asleep thread).mpr ⟨data, known, isUp⟩
          rcases resumeSem_asleep valid.balanced asleep with
            ⟨negative, resumed⟩
          rw [resumed]
          exact valid.leave asleep negative
  | alert thread => exact valid.alert thread
  | post =>
      simp only [step]
      rcases valid.post_cases with
        ⟨stopped, -⟩ | ⟨after, posted, validAfter, -⟩
      · rw [stopped]
      · rw [posted]
        exact validAfter
  | get =>
      simp only [step]
      rcases valid.get_cases with ⟨-, -, -, -, validAfter⟩ | ⟨-, missed⟩
      · exact validAfter
      · rw [missed]
        exact valid
  | getAll => exact valid.getAll
  | postAll =>
      have spec := postAll_spec valid (Nat.lt_succ_self _)
      simp only [step]
      generalize
        postAll (state.sem.sleeplist.length + 1) state = outcome at *
      cases outcome with
      | error stop => exact spec.1
      | ok pair =>
          rcases pair with ⟨result, after⟩
          exact spec.2.1

theorem run_valid
    {labels : List (Label Thread)}
    (run : Run (Takes step) Allowed (State.init val) labels state) :
    Valid val state := by
  refine run.invariant valid_init ?_
  intro source label target valid allowed taken
  have kept := step_keeps valid allowed
  unfold Takes at taken
  rw [taken] at kept
  exact kept

/--
A semaphore is correct.  In every run: the sleepers are those which `val`
lacks, and none of them has `up` set; every token is there, taken, or granted
to exactly one waiter; grants follow the order of the tickets; no assertion
fails; and `post_all_sem` ends, having woken every sleeper.
-/
theorem semaphore_correct
    {labels : List (Label Thread)}
    (run : Run (Takes step) Allowed (State.init val) labels state) :
    (state.sem.sleeplist.length : Int) = max 0 (-state.sem.val) ∧
    (∀ thread ∈ state.sem.sleeplist,
      ∃ data, state.waits thread = some data ∧ data.up = false) ∧
    (val : Int) + state.posts =
      max state.sem.val 0 + state.taken + state.pending.length ∧
    state.taken ≤ val + state.posts ∧
    (state.pending.Nodup ∧
      ∀ thread, thread ∈ state.pending ↔
        ∃ data, state.waits thread = some data ∧ data.up = true) ∧
    (state.grants.Pairwise fun later earlier => earlier < later) ∧
    (∀ label, Allowed state label →
      ∀ stop, step state label = .error stop → stop = .overflow) ∧
    ∀ fuel, state.sem.sleeplist.length < fuel →
      match postAll fuel state with
      | .ok (result, after) =>
          result = state.sem.sleeplist.length ∧ WakesAll state after
      | .error stop =>
          stop = .overflow ∧
            (state.sem.val = intMax ∨
              intMax < state.sem.sleeplist.length) := by
  have valid := run_valid run
  have bounded : state.taken ≤ val + state.posts := by
    have tokens := valid.tokens
    omega
  refine ⟨valid.balanced, ?_, valid.tokens, bounded,
    ⟨valid.pendingNodup, valid.granted⟩, valid.ordered, ?_, ?_⟩
  · intro thread member
    exact (valid.asleep thread).mp member
  · intro label allowed stop stopped
    have kept := step_keeps valid allowed
    rw [stopped] at kept
    exact kept
  · intro fuel enough
    have spec := postAll_spec valid enough
    generalize postAll fuel state = outcome at *
    cases outcome with
    | error stop => exact spec
    | ok pair =>
        rcases pair with ⟨result, after⟩
        exact ⟨spec.1, spec.2.2⟩

instance (label : Label Thread) : Decidable (Allowed state label) :=
  match label with
  | .wait thread => inferInstanceAs (Decidable (state.waits thread = none))
  | .resume thread =>
      decidable_of_iff
        ((state.waits thread).any (·.awake) = true)
        (by cases known : state.waits thread <;> simp [Allowed, known])
  | .alert _ => isTrue trivial
  | .post => isTrue trivial
  | .get => isTrue trivial
  | .getAll => isTrue trivial
  | .postAll => isTrue trivial

end Preserved

/-- A post and an alert hit the older of two sleepers. -/
def postAndAlert : List (Label (Fin 2)) :=
  [.wait 0, .wait 1, .alert 0, .post, .resume 0]

theorem semaphore_correct_post_and_alert :
    ∃ state : State (Fin 2),
      Run (Takes step) Allowed (State.init 0) postAndAlert state ∧
        state.sem.sleeplist = [1] ∧
        ((0 : Nat) : Int) + state.posts =
          max state.sem.val 0 + state.taken + state.pending.length := by
  have computed :
      ((executeChecked step
        (fun state label => decide (Allowed state label))
        (State.init 0) postAndAlert).map
          fun state => state.sem.sleeplist) = some [1] := by
    decide +kernel
  rcases Option.map_eq_some_iff.mp computed with ⟨state, executed, asleep⟩
  have run :
      Run (Takes step) Allowed (State.init 0) postAndAlert state :=
    Run.of_executeChecked (fun _ _ => of_decide_eq_true) executed
  exact ⟨state, run, asleep, (semaphore_correct run).2.2.1⟩

end FudanOS.Kernel.SemRuns
