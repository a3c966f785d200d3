import FudanOS.Library.Monitor
import FudanOS.Library.RingBuffer
import FudanOS.Library.Runs

/-!
# Pipes

`pipe_write`, `pipe_read` and `pipe_close` of `fs/pipe.c` on one pipe, by any
number of processes.  A step is one access to a field of the pipe, or one
operation on its lock or on a semaphore.

Neither of the two loops takes the lock again after it has waited: the call of
`acquire_spinlock` is commented out in the source.
-/

namespace FudanOS.Fs.Pipe

open FudanOS.Library
open FudanOS.Library.Runs
open FudanOS.Library.RingBuffer

/-! ## The functions -/

/-- `PIPE_SIZE` -/
abbrev pipeSize : Nat := 512

/-- The counters are of type `u32`. -/
abbrev u32Size : Nat := 2 ^ 32

inductive Call where
  /-- `pipe_write(pi, addr, n)` with the `n` bytes at `addr` -/
  | write (src : List UInt8)
  | read (n : Int)
  | close (writable : Bool)

/--
Where a process is.  A writer has `byte` to store now and `rest` to store
later, a reader has `left` bytes to go after this one; `stores` and `got` are
the bytes which it has stored and taken since it took the lock.
-/
inductive Phase where
  | idle
  /-- Before `acquire_spinlock(&pi->lock)`. -/
  | acquire (call : Call)
  /-- Before it loads `nwrite` for the test of the loop. -/
  | writeTest (byte : UInt8) (rest stores : List UInt8)
  /-- Before it loads `nread` for the test of the loop. -/
  | writeTestRead (byte : UInt8) (rest stores : List UInt8) (nwrite : Nat)
  /-- Before it loads `readopen`. -/
  | writeReadopen (byte : UInt8) (rest stores : List UInt8)
  /-- Before it loads `thisproc()->killed`. -/
  | writeKilled (byte : UInt8) (rest stores : List UInt8)
  /-- Before `post_sem(&pi->rlock)`, with a full pipe. -/
  | writePostFull (byte : UInt8) (rest stores : List UInt8)
  /-- Before `release_spinlock(&pi->lock)`, with a full pipe. -/
  | writeUnlock (byte : UInt8) (rest stores : List UInt8)
  /-- Before `unalertable_wait_sem(&pi->wlock)` returns. -/
  | writeWait (byte : UInt8) (rest : List UInt8)
  /-- Before it loads `nwrite` for the index. -/
  | writeIndex (byte : UInt8) (rest stores : List UInt8)
  /-- Before it stores into `data`. -/
  | writeData (byte : UInt8) (rest stores : List UInt8) (index : Nat)
  /-- Before it loads `nwrite` for `nwrite++`. -/
  | writeCount (byte : UInt8) (rest stores : List UInt8)
  /-- Before it stores `nwrite`. -/
  | writeNext (byte : UInt8) (rest stores : List UInt8) (nwrite : Nat)
  /-- Before `post_sem(&pi->rlock)`, with everything written. -/
  | writePost (stores : List UInt8)
  /-- Before the last `release_spinlock(&pi->lock)`. -/
  | writeRelease (stores : List UInt8)
  /-- Before it loads `nread` for the test of the first loop. -/
  | readTest (n : Int)
  /-- Before it loads `nwrite` for the test of the first loop. -/
  | readTestWrite (n : Int) (nread : Nat)
  /-- Before it loads `writeopen`. -/
  | readWriteopen (n : Int)
  /-- Before it loads `thisproc()->killed`. -/
  | readKilled (n : Int)
  /-- Before `release_spinlock(&pi->lock)`, with an empty pipe. -/
  | readUnlock (n : Int)
  /-- Before `unalertable_wait_sem(&pi->rlock)` returns. -/
  | readWait (n : Int)
  /-- Before it loads `nread` for the test of the second loop. -/
  | readLoop (left : Nat) (got : List UInt8)
  /-- Before it loads `nwrite` for the test of the second loop. -/
  | readLoopWrite (left : Nat) (got : List UInt8) (nread : Nat)
  /-- Before it loads `nread` for the index. -/
  | readIndex (left : Nat) (got : List UInt8)
  /-- Before it loads from `data`. -/
  | readData (left : Nat) (got : List UInt8) (index : Nat)
  /-- Before it loads `nread` for `nread++`. -/
  | readCount (left : Nat) (got : List UInt8) (byte : UInt8)
  /-- Before it stores `nread`. -/
  | readNext (left : Nat) (got : List UInt8) (byte : UInt8) (nread : Nat)
  /-- Before `post_sem(&pi->wlock)`. -/
  | readPost (got : List UInt8)
  /-- Before the last `release_spinlock(&pi->lock)`. -/
  | readRelease (got : List UInt8)
  /-- Before it stores `writeopen` or `readopen`. -/
  | closeSet (writable : Bool)
  /-- Before `post_sem`. -/
  | closePost (writable : Bool)
  /-- Before it loads `readopen`. -/
  | closeReadopen
  /-- Before it loads `writeopen`. -/
  | closeWriteopen
  /-- Before `release_spinlock(&pi->lock)`. -/
  | closeRelease (last : Bool)
  /-- Before `kfree`. -/
  | closeFree

structure State (count : Nat) where
  /-- The process which has set `pi->lock`. -/
  lock : Option (Fin count)
  data : Nat → UInt8
  nread : Nat
  nwrite : Nat
  readopen : Bool
  writeopen : Bool
  /-- The values of the semaphores. -/
  rlock : Nat
  wlock : Nat
  freed : Bool
  killed : Fin count → Bool
  procs : Fin count → Phase
  /-- The bytes which the holders of the lock have stored, in lock order. -/
  stored : List (List UInt8)
  /-- The bytes which the readers have returned, in lock order. -/
  returned : List (List UInt8)

inductive Label (count : Nat) where
  | call (proc : Fin count) (call : Call)
  | kill (proc : Fin count)
  /-- The next access of a process. -/
  | advance (proc : Fin count)

section Steps

variable {count : Nat}

/-- `init_pipe` -/
def initPipe : State count where
  lock := none
  data := fun _ => 0
  nread := 0
  nwrite := 0
  readopen := true
  writeopen := true
  rlock := 0
  wlock := 0
  freed := false
  killed := fun _ => false
  procs := fun _ => .idle
  stored := []
  returned := []

/-- The loop of `pipe_write` goes on with the bytes which are left. -/
def writeFrom (stores : List UInt8) : List UInt8 → Phase
  | [] => .writePost stores
  | byte :: rest => .writeTest byte rest stores

/-- The second loop of `pipe_read` goes on for so many bytes. -/
def readFrom (got : List UInt8) : Nat → Phase
  | 0 => .readPost got
  | left + 1 => .readLoop left got

/-- The first access of a function after it has the lock. -/
def Call.start : Call → Phase
  | .write src => writeFrom [] src
  | .read n => .readTest n
  | .close writable => .closeSet writable

def State.go (state : State count) (proc : Fin count) (phase : Phase) :
    State count :=
  { state with procs := Function.update state.procs proc phase }

/-- `release_spinlock(&pi->lock)`, which does not ask who holds the lock -/
def State.release (state : State count) (proc : Fin count)
    (phase : Phase) : State count :=
  { state with lock := none }.go proc phase

/-- The next access of a process, if it can go on. -/
def advance (state : State count) (proc : Fin count) :
    Option (State count) :=
  match state.procs proc with
  | .idle => none
  | .acquire call =>
      match state.lock with
      | none => some ({ state with lock := some proc }.go proc call.start)
      | some _ => none
  | .writeTest byte rest stores =>
      some (state.go proc (.writeTestRead byte rest stores state.nwrite))
  | .writeTestRead byte rest stores nwrite =>
      if nwrite = (state.nread + pipeSize) % u32Size then
        some (state.go proc (.writeReadopen byte rest stores))
      else
        some (state.go proc (.writeIndex byte rest stores))
  | .writeReadopen byte rest stores =>
      if state.readopen then
        some (state.go proc (.writeKilled byte rest stores))
      else
        some (state.go proc (.writeRelease stores))
  | .writeKilled byte rest stores =>
      if state.killed proc then
        some (state.go proc (.writeRelease stores))
      else
        some (state.go proc (.writePostFull byte rest stores))
  | .writePostFull byte rest stores =>
      some
        ({ state with rlock := state.rlock + 1 }.go proc
          (.writeUnlock byte rest stores))
  | .writeUnlock byte rest stores =>
      some
        ({ state with stored := state.stored ++ [stores] }.release proc
          (.writeWait byte rest))
  | .writeWait byte rest =>
      if 0 < state.wlock then
        some
          ({ state with wlock := state.wlock - 1 }.go proc
            (.writeTest byte rest []))
      else
        none
  | .writeIndex byte rest stores =>
      some
        (state.go proc
          (.writeData byte rest stores (state.nwrite % pipeSize)))
  | .writeData byte rest stores index =>
      some
        ({ state with
          data := Function.update state.data index byte }.go proc
            (.writeCount byte rest stores))
  | .writeCount byte rest stores =>
      some (state.go proc (.writeNext byte rest stores state.nwrite))
  | .writeNext byte rest stores nwrite =>
      some
        ({ state with nwrite := (nwrite + 1) % u32Size }.go proc
          (writeFrom (stores ++ [byte]) rest))
  | .writePost stores =>
      some
        ({ state with rlock := state.rlock + 1 }.go proc
          (.writeRelease stores))
  | .writeRelease stores =>
      some
        ({ state with stored := state.stored ++ [stores] }.release proc
          .idle)
  | .readTest n => some (state.go proc (.readTestWrite n state.nread))
  | .readTestWrite n nread =>
      if nread = state.nwrite then
        some (state.go proc (.readWriteopen n))
      else
        some (state.go proc (readFrom [] n.toNat))
  | .readWriteopen n =>
      if state.writeopen then
        some (state.go proc (.readKilled n))
      else
        some (state.go proc (readFrom [] n.toNat))
  | .readKilled n =>
      if state.killed proc then
        some (state.go proc (.readRelease []))
      else
        some (state.go proc (.readUnlock n))
  | .readUnlock n => some (state.release proc (.readWait n))
  | .readWait n =>
      if 0 < state.rlock then
        some
          ({ state with rlock := state.rlock - 1 }.go proc (.readTest n))
      else
        none
  | .readLoop left got =>
      some (state.go proc (.readLoopWrite left got state.nread))
  | .readLoopWrite left got nread =>
      if nread = state.nwrite then
        some (state.go proc (.readPost got))
      else
        some (state.go proc (.readIndex left got))
  | .readIndex left got =>
      some (state.go proc (.readData left got (state.nread % pipeSize)))
  | .readData left got index =>
      some (state.go proc (.readCount left got (state.data index)))
  | .readCount left got byte =>
      some (state.go proc (.readNext left got byte state.nread))
  | .readNext left got byte nread =>
      some
        ({ state with nread := (nread + 1) % u32Size }.go proc
          (readFrom (got ++ [byte]) left))
  | .readPost got =>
      some
        ({ state with wlock := state.wlock + 1 }.go proc
          (.readRelease got))
  | .readRelease got =>
      some
        ({ state with returned := state.returned ++ [got] }.release proc
          .idle)
  | .closeSet writable =>
      if writable then
        some ({ state with writeopen := false }.go proc (.closePost true))
      else
        some ({ state with readopen := false }.go proc (.closePost false))
  | .closePost writable =>
      if writable then
        some
          ({ state with rlock := state.rlock + 1 }.go proc .closeReadopen)
      else
        some
          ({ state with wlock := state.wlock + 1 }.go proc .closeReadopen)
  | .closeReadopen =>
      if state.readopen then
        some (state.go proc (.closeRelease false))
      else
        some (state.go proc .closeWriteopen)
  | .closeWriteopen =>
      some (state.go proc (.closeRelease (!state.writeopen)))
  | .closeRelease last =>
      some (state.release proc (if last then .closeFree else .idle))
  | .closeFree => some ({ state with freed := true }.go proc .idle)

def step (state : State count) (label : Label count) :
    Except Unit (State count) :=
  match label with
  | .call proc call =>
      match state.procs proc with
      | .idle => .ok (state.go proc (.acquire call))
      | _ => .error ()
  | .kill proc =>
      .ok { state with killed := Function.update state.killed proc true }
  | .advance proc =>
      match advance state proc with
      | some target => .ok target
      | none => .error ()

end Steps

/-! ## What the lock is for -/

/-- The next step accesses a field of the pipe or releases the lock. -/
def Phase.touches : Phase → Bool
  | .idle => false
  | .acquire _ => false
  | .writeKilled _ _ _ => false
  | .writePostFull _ _ _ => false
  | .writeWait _ _ => false
  | .writePost _ => false
  | .readKilled _ => false
  | .readWait _ => false
  | .readPost _ => false
  | .closePost _ => false
  | .closeFree => false
  | _ => true

/-- The process is between taking the lock and releasing it. -/
def Phase.inside : Phase → Bool
  | .idle => false
  | .acquire _ => false
  | .writeWait _ _ => false
  | .readWait _ => false
  | .closeFree => false
  | _ => true

/-- The bytes which a writer has stored since it took the lock. -/
def Phase.stores : Phase → List UInt8
  | .writeTest _ _ stores => stores
  | .writeTestRead _ _ stores _ => stores
  | .writeReadopen _ _ stores => stores
  | .writeKilled _ _ stores => stores
  | .writePostFull _ _ stores => stores
  | .writeUnlock _ _ stores => stores
  | .writeIndex _ _ stores => stores
  | .writeData _ _ stores _ => stores
  | .writeCount _ _ stores => stores
  | .writeNext _ _ stores _ => stores
  | .writePost stores => stores
  | .writeRelease stores => stores
  | _ => []

/-- The bytes which a reader has taken since it took the lock. -/
def Phase.gets : Phase → List UInt8
  | .readLoop _ got => got
  | .readLoopWrite _ got _ => got
  | .readIndex _ got => got
  | .readData _ got _ => got
  | .readCount _ got _ => got
  | .readNext _ got _ _ => got
  | .readPost got => got
  | .readRelease got => got
  | _ => []

section Specification

variable {count : Nat}

/-- Where the holder of the lock is. -/
def State.holding (state : State count) : Phase :=
  Monitor.holding .idle state.lock state.procs

/-- All bytes which have been stored, one holder of the lock after another. -/
def State.allStored (state : State count) : List UInt8 :=
  state.stored.flatten ++ state.holding.stores

/-- All bytes which have been taken, one holder of the lock after another. -/
def State.allTaken (state : State count) : List UInt8 :=
  state.returned.flatten ++ state.holding.gets

/--
Only the holder of the lock accesses the pipe or releases the lock, and what
readers have taken is a prefix of what writers have stored, with `nwrite -
nread` bytes to go.
-/
structure Exclusive (state : State count) : Prop where
  guarded :
    ∀ proc, (state.procs proc).touches = true → state.lock = some proc
  inOrder :
    ∃ pending, state.allStored = state.allTaken ++ pending ∧
      pending.length =
        (state.nwrite + u32Size - state.nread) % u32Size ∧
      pending.length ≤ pipeSize

/-- The next step is the return of `unalertable_wait_sem`. -/
def Phase.waits : Phase → Bool
  | .writeWait _ _ => true
  | .readWait _ => true
  | _ => false

/-- A call is made on a pipe which is not freed. -/
def Allowed (state : State count) : Label count → Prop
  | .call _ _ => state.freed = false
  | _ => True

/-- No wait of a reader or a writer returns. -/
def Careful (state : State count) : Label count → Prop
  | .advance proc => (state.procs proc).waits = false
  | _ => True

end Specification

/-! ## The invariant -/

section Invariant

variable {count : Nat}

/-- What the holder of the lock knows about the ring, and what it holds. -/
def Phase.Fits (state : State count) (items : List UInt8) : Phase → Prop
  | .writeTestRead _ _ _ nwrite => nwrite = state.nwrite
  | .writeIndex _ _ _ => items.length < pipeSize
  | .writeData _ _ _ index =>
      items.length < pipeSize ∧ index = state.nwrite % pipeSize
  | .writeCount byte _ _ =>
      items.length < pipeSize ∧
        state.data (state.nwrite % pipeSize) = byte
  | .writeNext byte _ _ nwrite =>
      items.length < pipeSize ∧
        state.data (state.nwrite % pipeSize) = byte ∧
        nwrite = state.nwrite
  | .readTestWrite _ nread => nread = state.nread
  | .readLoopWrite _ _ nread => nread = state.nread
  | .readIndex _ _ => items ≠ []
  | .readData _ _ index => items ≠ [] ∧ index = state.nread % pipeSize
  | .readCount _ _ byte => ∃ rest, items = byte :: rest
  | .readNext _ _ byte nread =>
      (∃ rest, items = byte :: rest) ∧ nread = state.nread
  | _ => True

/-- The ring holds the bytes which are stored and not taken. -/
def Holds (state : State count) (phase : Phase) (items : List UInt8) :
    Prop :=
  Contains pipeSize u32Size state.data state.nread state.nwrite
      (state.returned.flatten ++ phase.gets).length items ∧
    state.stored.flatten ++ phase.stores =
      state.returned.flatten ++ phase.gets ++ items ∧
    phase.Fits state items

/-- What is known of the pipe when the holder of the lock is at a phase. -/
def Good (state : State count) (phase : Phase) : Prop :=
  ∃ items, Holds state phase items

def Invariant (state : State count) : Prop :=
  Monitor.Invariant .idle Phase.inside (Good state) state.lock state.procs

theorem Phase.inside_of_touches
    {phase : Phase}
    (touches : phase.touches = true) :
    phase.inside = true := by
  cases phase <;> first | rfl | cases touches

theorem Invariant.exclusive
    {state : State count}
    (invariant : Invariant state) :
    Exclusive state := by
  refine ⟨?_, ?_⟩
  · intro proc touches
    exact invariant.guarded proc (Phase.inside_of_touches touches)
  · rcases invariant.resource with ⟨items, contains, order, -⟩
    refine ⟨items, order, ?_, contains.bounded⟩
    exact (contains.distance (by decide)).symm

theorem invariant_initPipe : Invariant (initPipe : State count) := by
  refine ⟨?_, ?_, [], ?_⟩
  · intro proc inside
    cases inside
  · intro proc owned
    cases owned
  · exact ⟨Contains.empty, rfl, trivial⟩

end Invariant

/-! ## Every step of the holder -/

section Holder

variable
    {count : Nat}
    {state : State count}
    {byte : UInt8}
    {rest stores got items : List UInt8}
    {left : Nat}

/-- The loops begin without anything known about the ring. -/
theorem Holds.writeFrom
    (holds : Holds state (.writePost stores) items) :
    Holds state (writeFrom stores rest) items := by
  cases rest with
  | nil => exact holds
  | cons byte rest => exact holds

theorem Holds.readFrom
    (holds : Holds state (.readPost got) items) :
    Holds state (readFrom got left) items := by
  cases left with
  | zero => exact holds
  | succ left => exact holds

theorem inside_writeFrom :
    (writeFrom stores rest).inside = true := by
  cases rest with
  | nil => rfl
  | cons byte rest => rfl

theorem inside_readFrom :
    (readFrom got left).inside = true := by
  cases left with
  | zero => rfl
  | succ left => rfl

/-- `pi->data[pi->nwrite % PIPE_SIZE] = ...` -/
theorem Holds.writeData
    {index : Nat}
    (holds : Holds state (.writeData byte rest stores index) items) :
    Holds { state with data := Function.update state.data index byte }
      (.writeCount byte rest stores) items := by
  rcases holds with ⟨contains, order, room, same⟩
  subst same
  refine ⟨contains.overwrite (by decide) room byte, order, room, ?_⟩
  exact Function.update_self _ _ _

/-- `pi->nwrite++` -/
theorem Holds.writeNext
    {nwrite : Nat}
    (holds : Holds state (.writeNext byte rest stores nwrite) items) :
    Holds { state with nwrite := (nwrite + 1) % u32Size }
      (.writePost (stores ++ [byte])) (items ++ [byte]) := by
  rcases holds with ⟨contains, order, room, placed, same⟩
  subst same
  refine ⟨contains.extend (by decide) room placed, ?_, trivial⟩
  change state.stored.flatten ++ (stores ++ [byte]) =
    state.returned.flatten ++ [] ++ (items ++ [byte])
  change state.stored.flatten ++ stores =
    state.returned.flatten ++ [] ++ items at order
  rw [← List.append_assoc, order, List.append_assoc]

/-- `pi->nread++` -/
theorem Holds.readNext
    {nread : Nat}
    (holds : Holds state (.readNext left got byte nread) items) :
    Good { state with nread := (nread + 1) % u32Size }
      (.readPost (got ++ [byte])) := by
  rcases holds with ⟨contains, order, ⟨later, same⟩, sameRead⟩
  subst same
  subst sameRead
  refine ⟨later, ?_, ?_, trivial⟩
  · have popped := contains.pop
    have longer :
        (state.returned.flatten ++ (got ++ [byte])).length =
          (state.returned.flatten ++ got).length + 1 := by
      simp only [List.length_append, List.length_singleton]
      omega
    change Contains _ _ _ _ _
      (state.returned.flatten ++ (got ++ [byte])).length _
    rw [longer]
    exact popped
  · change state.stored.flatten ++ [] =
      state.returned.flatten ++ (got ++ [byte]) ++ later
    change state.stored.flatten ++ [] =
      state.returned.flatten ++ got ++ (byte :: later) at order
    rw [order]
    simp only [List.append_assoc, List.singleton_append]

/-- A writer releases the lock. -/
theorem Holds.stored
    (holds : Holds state (.writeRelease stores) items) :
    Holds { state with stored := state.stored ++ [stores] } .idle
      items := by
  rcases holds with ⟨contains, order, -⟩
  refine ⟨contains, ?_, trivial⟩
  change (state.stored ++ [stores]).flatten ++ [] =
    state.returned.flatten ++ [] ++ items
  rw [List.append_nil, List.flatten_append, List.flatten_singleton]
  exact order

/-- A reader releases the lock. -/
theorem Holds.returned
    (holds : Holds state (.readRelease got) items) :
    Holds { state with returned := state.returned ++ [got] } .idle
      items := by
  rcases holds with ⟨contains, order, -⟩
  have flat :
      (state.returned ++ [got]).flatten =
        state.returned.flatten ++ got := by
    rw [List.flatten_append, List.flatten_singleton]
  refine ⟨?_, ?_, trivial⟩
  · change Contains _ _ _ _ _
      ((state.returned ++ [got]).flatten ++ []).length _
    rw [List.append_nil, flat]
    exact contains
  · change state.stored.flatten ++ [] =
      (state.returned ++ [got]).flatten ++ [] ++ items
    rw [flat, List.append_nil (state.returned.flatten ++ got)]
    exact order

end Holder

section Preservation

variable
    {count : Nat}
    {state target : State count}
    {proc : Fin count}

/-- One step of a process which does not come out of a wait. -/
theorem Invariant.advance
    (invariant : Invariant state)
    (careful : (state.procs proc).waits = false)
    (taken : advance state proc = some target) :
    Invariant target := by
  have known :
      (state.procs proc).inside = true →
        Good state (state.procs proc) :=
    fun inside => invariant.resource_of_inside inside
  have goes :
      ∀ {after : State count} {phase : Phase},
        (state.procs proc).inside = true → phase.inside = true →
          Good after phase →
            Monitor.Invariant .idle Phase.inside (Good after) state.lock
              (Function.update state.procs proc phase) :=
    fun inside stays good => Monitor.Invariant.go invariant inside stays good
  have leaves :
      ∀ {after : State count} {phase : Phase},
        (state.procs proc).inside = true → phase.inside = false →
          Good after .idle →
            Monitor.Invariant .idle Phase.inside (Good after) none
              (Function.update state.procs proc phase) :=
    fun inside out good =>
      Monitor.Invariant.release invariant inside out good
  unfold Pipe.advance at taken
  cases phase : state.procs proc with
  | idle =>
      rw [phase] at taken
      cases taken
  | acquire call =>
      rw [phase] at taken
      dsimp only at taken
      cases unlocked : state.lock with
      | some other =>
          rw [unlocked] at taken
          cases taken
      | none =>
          rw [unlocked] at taken
          cases taken
          have free :
              Monitor.Invariant .idle Phase.inside (Good state) none
                state.procs := by
            rw [← unlocked]
            exact invariant
          rcases free.resource_of_unlocked with ⟨items, holds⟩
          cases call with
          | write src =>
              exact free.acquire inside_writeFrom
                ⟨items, Holds.writeFrom (show Holds state _ _ from holds)⟩
          | read n => exact free.acquire rfl ⟨items, holds⟩
          | close writable => exact free.acquire rfl ⟨items, holds⟩
  | writeTest byte rest stores =>
      rw [phase] at taken known goes
      cases taken
      rcases known rfl with ⟨items, contains, order, -⟩
      exact goes rfl rfl ⟨items, contains, order, rfl⟩
  | writeTestRead byte rest stores nwrite =>
      rw [phase] at taken known goes
      dsimp only at taken
      rcases known rfl with ⟨items, contains, order, loaded⟩
      have full := contains.write_eq_read_add_iff (by decide)
      split_ifs at taken with isFull
      · cases taken
        exact goes rfl rfl ⟨items, contains, order, trivial⟩
      · cases taken
        have room : items.length < pipeSize := by
          refine Nat.lt_of_le_of_ne contains.bounded fun filled => ?_
          exact isFull (loaded.trans (full.mpr filled))
        exact goes rfl rfl ⟨items, contains, order, room⟩
  | writeReadopen byte rest stores =>
      rw [phase] at taken known goes
      dsimp only at taken
      rcases known rfl with ⟨items, contains, order, -⟩
      split_ifs at taken
      · cases taken
        exact goes rfl rfl ⟨items, contains, order, trivial⟩
      · cases taken
        exact goes rfl rfl ⟨items, contains, order, trivial⟩
  | writeKilled byte rest stores =>
      rw [phase] at taken known goes
      dsimp only at taken
      rcases known rfl with ⟨items, contains, order, -⟩
      split_ifs at taken
      · cases taken
        exact goes rfl rfl ⟨items, contains, order, trivial⟩
      · cases taken
        exact goes rfl rfl ⟨items, contains, order, trivial⟩
  | writePostFull byte rest stores =>
      rw [phase] at taken known goes
      cases taken
      rcases known rfl with ⟨items, contains, order, -⟩
      exact goes rfl rfl ⟨items, contains, order, trivial⟩
  | writeUnlock byte rest stores =>
      rw [phase] at taken known leaves
      cases taken
      rcases known rfl with ⟨items, holds⟩
      exact leaves rfl rfl ⟨items, Holds.stored holds⟩
  | writeWait byte rest =>
      rw [phase] at careful
      cases careful
  | writeIndex byte rest stores =>
      rw [phase] at taken known goes
      cases taken
      rcases known rfl with ⟨items, contains, order, room⟩
      exact goes rfl rfl ⟨items, contains, order, room, rfl⟩
  | writeData byte rest stores index =>
      rw [phase] at taken known goes
      cases taken
      rcases known rfl with ⟨items, holds⟩
      exact goes rfl rfl ⟨items, holds.writeData⟩
  | writeCount byte rest stores =>
      rw [phase] at taken known goes
      cases taken
      rcases known rfl with ⟨items, contains, order, room, placed⟩
      exact goes rfl rfl ⟨items, contains, order, room, placed, rfl⟩
  | writeNext byte rest stores nwrite =>
      rw [phase] at taken known goes
      cases taken
      rcases known rfl with ⟨items, holds⟩
      exact goes rfl inside_writeFrom
        ⟨items ++ [byte], holds.writeNext.writeFrom⟩
  | writePost stores =>
      rw [phase] at taken known goes
      cases taken
      rcases known rfl with ⟨items, contains, order, -⟩
      exact goes rfl rfl ⟨items, contains, order, trivial⟩
  | writeRelease stores =>
      rw [phase] at taken known leaves
      cases taken
      rcases known rfl with ⟨items, holds⟩
      exact leaves rfl rfl ⟨items, holds.stored⟩
  | readTest n =>
      rw [phase] at taken known goes
      cases taken
      rcases known rfl with ⟨items, contains, order, -⟩
      exact goes rfl rfl ⟨items, contains, order, rfl⟩
  | readTestWrite n nread =>
      rw [phase] at taken known goes
      dsimp only at taken
      rcases known rfl with ⟨items, contains, order, -⟩
      split_ifs at taken
      · cases taken
        exact goes rfl rfl ⟨items, contains, order, trivial⟩
      · cases taken
        have holds : Holds state (.readPost []) items :=
          ⟨contains, order, trivial⟩
        exact goes rfl inside_readFrom ⟨items, holds.readFrom⟩
  | readWriteopen n =>
      rw [phase] at taken known goes
      dsimp only at taken
      rcases known rfl with ⟨items, contains, order, -⟩
      split_ifs at taken
      · cases taken
        exact goes rfl rfl ⟨items, contains, order, trivial⟩
      · cases taken
        have holds : Holds state (.readPost []) items :=
          ⟨contains, order, trivial⟩
        exact goes rfl inside_readFrom ⟨items, holds.readFrom⟩
  | readKilled n =>
      rw [phase] at taken known goes
      dsimp only at taken
      rcases known rfl with ⟨items, contains, order, -⟩
      split_ifs at taken
      · cases taken
        exact goes rfl rfl ⟨items, contains, order, trivial⟩
      · cases taken
        exact goes rfl rfl ⟨items, contains, order, trivial⟩
  | readUnlock n =>
      rw [phase] at taken known leaves
      cases taken
      rcases known rfl with ⟨items, contains, order, -⟩
      exact leaves rfl rfl ⟨items, contains, order, trivial⟩
  | readWait n =>
      rw [phase] at careful
      cases careful
  | readLoop left got =>
      rw [phase] at taken known goes
      cases taken
      rcases known rfl with ⟨items, contains, order, -⟩
      exact goes rfl rfl ⟨items, contains, order, rfl⟩
  | readLoopWrite left got nread =>
      rw [phase] at taken known goes
      dsimp only at taken
      rcases known rfl with ⟨items, contains, order, loaded⟩
      have empty := contains.read_eq_write_iff (by decide)
      split_ifs at taken with isEmpty
      · cases taken
        exact goes rfl rfl ⟨items, contains, order, trivial⟩
      · cases taken
        have more : items ≠ [] := by
          intro none
          exact isEmpty (loaded.trans (empty.mpr none))
        exact goes rfl rfl ⟨items, contains, order, more⟩
  | readIndex left got =>
      rw [phase] at taken known goes
      cases taken
      rcases known rfl with ⟨items, contains, order, more⟩
      exact goes rfl rfl ⟨items, contains, order, more, rfl⟩
  | readData left got index =>
      rw [phase] at taken known goes
      cases taken
      rcases known rfl with ⟨items, contains, order, more, same⟩
      subst same
      cases items with
      | nil => exact absurd rfl more
      | cons byte later =>
          have first := contains.front (by decide)
          refine goes rfl rfl ⟨byte :: later, contains, order, later, ?_⟩
          rw [first]
  | readCount left got byte =>
      rw [phase] at taken known goes
      cases taken
      rcases known rfl with ⟨items, contains, order, first⟩
      exact goes rfl rfl ⟨items, contains, order, first, rfl⟩
  | readNext left got byte nread =>
      rw [phase] at taken known goes
      cases taken
      rcases known rfl with ⟨items, holds⟩
      rcases holds.readNext with ⟨later, next⟩
      exact goes rfl inside_readFrom ⟨later, next.readFrom⟩
  | readPost got =>
      rw [phase] at taken known goes
      cases taken
      rcases known rfl with ⟨items, contains, order, -⟩
      exact goes rfl rfl ⟨items, contains, order, trivial⟩
  | readRelease got =>
      rw [phase] at taken known leaves
      cases taken
      rcases known rfl with ⟨items, holds⟩
      exact leaves rfl rfl ⟨items, holds.returned⟩
  | closeSet writable =>
      rw [phase] at taken known goes
      dsimp only at taken
      rcases known rfl with ⟨items, contains, order, -⟩
      split_ifs at taken
      · cases taken
        exact goes rfl rfl ⟨items, contains, order, trivial⟩
      · cases taken
        exact goes rfl rfl ⟨items, contains, order, trivial⟩
  | closePost writable =>
      rw [phase] at taken known goes
      dsimp only at taken
      rcases known rfl with ⟨items, contains, order, -⟩
      split_ifs at taken
      · cases taken
        exact goes rfl rfl ⟨items, contains, order, trivial⟩
      · cases taken
        exact goes rfl rfl ⟨items, contains, order, trivial⟩
  | closeReadopen =>
      rw [phase] at taken known goes
      dsimp only at taken
      rcases known rfl with ⟨items, contains, order, -⟩
      split_ifs at taken
      · cases taken
        exact goes rfl rfl ⟨items, contains, order, trivial⟩
      · cases taken
        exact goes rfl rfl ⟨items, contains, order, trivial⟩
  | closeWriteopen =>
      rw [phase] at taken known goes
      cases taken
      rcases known rfl with ⟨items, contains, order, -⟩
      exact goes rfl rfl ⟨items, contains, order, trivial⟩
  | closeRelease last =>
      rw [phase] at taken known leaves
      cases taken
      rcases known rfl with ⟨items, contains, order, -⟩
      have out : (if last then Phase.closeFree else .idle).inside = false := by
        cases last with
        | true => rfl
        | false => rfl
      exact leaves rfl out ⟨items, contains, order, trivial⟩
  | closeFree =>
      rw [phase] at taken
      cases taken
      have outside : (state.procs proc).inside = false := by
        rw [phase]
        rfl
      exact Monitor.Invariant.outside invariant outside rfl
        fun held good => good

theorem Invariant.of_step
    (invariant : Invariant state)
    {label : Label count}
    (careful : Careful state label)
    (taken : step state label = .ok target) :
    Invariant target := by
  unfold step at taken
  cases label with
  | call proc call =>
      dsimp only at taken
      cases phase : state.procs proc with
      | idle =>
          rw [phase] at taken
          cases taken
          have outside : (state.procs proc).inside = false := by
            rw [phase]
            rfl
          exact Monitor.Invariant.outside invariant outside rfl
            fun held good => good
      | _ =>
          rw [phase] at taken
          cases taken
  | kill proc =>
      cases taken
      exact Monitor.Invariant.mono invariant fun held good => good
  | advance proc =>
      dsimp only at taken
      cases moved : Pipe.advance state proc with
      | none =>
          rw [moved] at taken
          cases taken
      | some next =>
          rw [moved] at taken
          cases taken
          exact invariant.advance careful moved

end Preservation

/--
As long as no wait of a reader or a writer returns, only the holder of the lock
accesses the pipe, and bytes come out in the order in which they went in.
-/
theorem pipe_exclusive
    {count : Nat}
    {labels : List (Label count)}
    {finish : State count}
    (run :
      Run (Takes step)
        (fun state label => Allowed state label ∧ Careful state label)
        initPipe labels finish) :
    Exclusive finish := by
  have invariant : Invariant finish := by
    refine run.invariant invariant_initPipe ?_
    intro source label target invariant permitted taken
    exact invariant.of_step permitted.2 taken
  exact invariant.exclusive

/-! ## A reader which has to wait -/

section Example

variable {count : Nat}

instance (state : State count) (label : Label count) :
    Decidable (Allowed state label) :=
  match label with
  | .call _ _ => inferInstanceAs (Decidable (_ = _))
  | .kill _ => inferInstanceAs (Decidable True)
  | .advance _ => inferInstanceAs (Decidable True)

instance (state : State count) (label : Label count) :
    Decidable (Careful state label) :=
  match label with
  | .call _ _ => inferInstanceAs (Decidable True)
  | .kill _ => inferInstanceAs (Decidable True)
  | .advance _ => inferInstanceAs (Decidable (_ = _))

end Example

/-- Process 0 writes two bytes, and process 1 reads them. -/
def writeThenRead : List (Label 2) :=
  [.call 0 (.write [7, 8])] ++ List.replicate 15 (.advance 0) ++
    [.call 1 (.read 5)] ++ List.replicate 19 (.advance 1)

/--
Process 0 waits for the first byte, which process 1 writes.  Process 1 takes
the lock again, and then the wait of process 0 returns.
-/
def readerWakes : List (Label 2) :=
  [.call 0 (.read 1)] ++ List.replicate 6 (.advance 0) ++
    [.call 1 (.write [7])] ++ List.replicate 9 (.advance 1) ++
    [.call 1 (.write [8]), .advance 1, .advance 0]

theorem pipe_exclusive_two_bytes :
    ∃ finish : State 2,
      Run (Takes step)
          (fun state label => Allowed state label ∧ Careful state label)
          initPipe writeThenRead finish ∧
        finish.returned = [[7, 8]] ∧ Exclusive finish := by
  have computed :
      ((executeChecked step
        (fun state label =>
          decide (Allowed state label ∧ Careful state label))
        initPipe writeThenRead).map State.returned) = some [[7, 8]] := by
    decide +kernel
  rcases Option.map_eq_some_iff.mp computed with
    ⟨finish, executed, returned⟩
  have run :
      Run (Takes step)
        (fun state label => Allowed state label ∧ Careful state label)
        initPipe writeThenRead finish :=
    Run.of_executeChecked (fun _ _ => of_decide_eq_true) executed
  exact ⟨finish, run, returned, pipe_exclusive run⟩

/-- Process 0 is about to load `nread` while process 1 holds the lock. -/
theorem reader_without_lock :
    ∃ finish : State 2,
      Run (Takes step) Allowed initPipe readerWakes finish ∧
        (finish.procs 0).touches = true ∧ finish.lock = some 1 ∧
        ¬ Exclusive finish := by
  have computed :
      ((executeChecked step
        (fun state label => decide (Allowed state label))
        initPipe readerWakes).map fun state =>
          ((state.procs 0).touches, state.lock)) =
        some (true, some 1) := by
    decide +kernel
  rcases Option.map_eq_some_iff.mp computed with ⟨finish, executed, values⟩
  have run :
      Run (Takes step) Allowed initPipe readerWakes finish :=
    Run.of_executeChecked (fun _ _ => of_decide_eq_true) executed
  simp only [Prod.mk.injEq] at values
  rcases values with ⟨touches, lock⟩
  refine ⟨finish, run, touches, lock, ?_⟩
  intro exclusive
  have owns := exclusive.guarded 0 touches
  rw [lock] at owns
  exact absurd owns (by decide)

end FudanOS.Fs.Pipe
