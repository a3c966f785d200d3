import FudanOS.Kernel.Console
import FudanOS.Library.Monitor

/-!
# Several readers of the console

`console_read` and `console_intr` of `kernel/console.c` by any number of
processes and interrupts.  A step is one access to the console, or one
operation on its lock or on its semaphore.  The lock of the inode is left out,
and so is the echo on the screen.

As in the functions for pipes, the loop of `console_read` does not take the
lock again after it has waited.
-/

namespace FudanOS.Kernel.ConsoleReaders

open FudanOS.Library
open FudanOS.Library.Runs
open FudanOS.Library.RingBuffer
open FudanOS.Kernel.Console

/-! ## The functions -/

inductive Call where
  | read (n : Int)
  /-- `console_intr(c)` while the process `victim` runs -/
  | intr (c : UInt8) (victim : Nat)

/--
Where a process or an interrupt is.  A reader of `m` bytes has `left` bytes to
go after this one, and `got` is what it has stored into `dst`.
-/
inductive Phase where
  | idle
  /-- Before `acquire_spinlock(&cons.lock)`. -/
  | acquire (call : Call)
  /-- Before it loads `read_idx` for the test of the inner loop. -/
  | readTest (m left : Nat) (got : List UInt8)
  /-- Before it loads `write_idx` for the test of the inner loop. -/
  | readTestWrite (m left : Nat) (got : List UInt8) (readIdx : Nat)
  /-- Before it loads `thisproc()->killed`. -/
  | readKilled (m left : Nat) (got : List UInt8)
  /-- Before `release_spinlock(&cons.lock)`, with nothing to read. -/
  | readUnlock (m left : Nat) (got : List UInt8)
  /-- Before `unalertable_wait_sem(&cons.sem)` returns. -/
  | readWait (m left : Nat) (got : List UInt8)
  /-- Before it loads `read_idx` for the index. -/
  | readIndex (m left : Nat) (got : List UInt8)
  /-- Before it loads from `buf`. -/
  | readByte (m left : Nat) (got : List UInt8) (index : Nat)
  /-- Before it loads `read_idx` for `read_idx++`. -/
  | readCount (m left : Nat) (got : List UInt8) (c : UInt8)
  /-- Before it stores `read_idx`. -/
  | readNext (m left : Nat) (got : List UInt8) (c : UInt8) (readIdx : Nat)
  /-- Before it loads `read_idx` for `read_idx--`. -/
  | readBack (got : List UInt8)
  /-- Before it stores `read_idx` again. -/
  | readBackNext (got : List UInt8) (readIdx : Nat)
  /-- Before the last `release_spinlock(&cons.lock)`. -/
  | readRelease (got : List UInt8)
  /-- Before `kill(thisproc()->pid)`. -/
  | intrKill (victim : Nat)
  /-- Before it loads `edit_idx`; for Ctrl-U the `whole` line is erased. -/
  | eraseTest (whole : Bool)
  /-- Before it loads `write_idx`. -/
  | eraseTestWrite (whole : Bool) (editIdx : Nat)
  /-- Before it loads `edit_idx` for the index of the last character. -/
  | eraseLast
  /-- Before it loads the last character. -/
  | eraseByte (index : Nat)
  /-- Before it loads `edit_idx` for `edit_idx--`. -/
  | eraseCount (whole : Bool)
  /-- Before it stores `edit_idx`. -/
  | eraseNext (whole : Bool) (editIdx : Nat)
  /-- Before it loads `edit_idx` for the test of the room. -/
  | putTest (c : UInt8)
  /-- Before it loads `read_idx` for the test of the room. -/
  | putTestRead (c : UInt8) (editIdx : Nat)
  /-- Before it loads `edit_idx` for the index. -/
  | putIndex (c : UInt8)
  /-- Before it stores into `buf`. -/
  | putByte (c : UInt8) (index : Nat)
  /-- Before it loads `edit_idx` for `edit_idx++`. -/
  | putCount (c : UInt8)
  /-- Before it stores `edit_idx`. -/
  | putNext (c : UInt8) (editIdx : Nat)
  /-- Before it loads `edit_idx` for the test of the full buffer. -/
  | fullTest
  /-- Before it loads `read_idx` for the test of the full buffer. -/
  | fullTestRead (editIdx : Nat)
  /-- Before it loads `edit_idx` for `write_idx`. -/
  | commitLoad
  /-- Before it stores `write_idx`. -/
  | commitStore (editIdx : Nat)
  /-- Before `post_sem(&cons.sem)`. -/
  | commitPost
  /-- Before `release_spinlock(&cons.lock)`. -/
  | intrRelease

structure State (count : Nat) where
  /-- The one who has set `cons.lock`. -/
  lock : Option (Fin count)
  cons : Cons
  killed : Nat → Bool
  procs : Fin count → Phase
  /-- All bytes which have been committed. -/
  committed : List UInt8
  /-- The line which is being typed. -/
  pending : List UInt8
  /-- All bytes which have been read, with their readers. -/
  taken : List (Fin count × UInt8)

inductive Label (count : Nat) where
  | call (proc : Fin count) (call : Call)
  | kill (victim : Nat)
  /-- The next access of a process or an interrupt. -/
  | advance (proc : Fin count)

section Steps

variable {count : Nat}

/-- `console_init` -/
def initial : State count where
  lock := none
  cons := Console.initial.cons
  killed := fun _ => false
  procs := fun _ => .idle
  committed := []
  pending := []
  taken := []

/-- The outer loop of `console_read` when so many bytes are left. -/
def readFrom (m : Nat) (got : List UInt8) : Nat → Phase
  | 0 => .readRelease got
  | left + 1 => .readTest m left got

/-- `console_read` after `read_idx++` -/
def afterByte (m left : Nat) (got : List UInt8) (c : UInt8) : Phase :=
  if c = ctrlD then
    if left + 1 < m then .readBack got else .readRelease got
  else if c = lf then
    .readRelease (got ++ [c])
  else
    readFrom m (got ++ [c]) left

/-- `console_intr` after it has the lock -/
def intrStart (c : UInt8) (victim : Nat) : Phase :=
  if c ≠ 0 then
    if c = ctrlC then
      .intrKill victim
    else if c = ctrlU then
      .eraseTest true
    else if c = del then
      .eraseTest false
    else
      .putTest c
  else
    .intrRelease

/-- The first access of a function after it has the lock. -/
def Call.start : Call → Phase
  | .read n => readFrom n.toNat [] n.toNat
  | .intr c victim => intrStart c victim

def State.go (state : State count) (proc : Fin count) (phase : Phase) :
    State count :=
  { state with procs := Function.update state.procs proc phase }

/-- `release_spinlock(&cons.lock)` -/
def State.release (state : State count) (proc : Fin count)
    (phase : Phase) : State count :=
  { state with lock := none }.go proc phase

/-- The next access of a process or an interrupt, if it can go on. -/
def advance (state : State count) (proc : Fin count) :
    Option (State count) :=
  let cons := state.cons
  match state.procs proc with
  | .idle => none
  | .acquire call =>
      match state.lock with
      | none => some ({ state with lock := some proc }.go proc call.start)
      | some _ => none
  | .readTest m left got =>
      some (state.go proc (.readTestWrite m left got cons.readIdx))
  | .readTestWrite m left got readIdx =>
      if readIdx = cons.writeIdx then
        some (state.go proc (.readKilled m left got))
      else
        some (state.go proc (.readIndex m left got))
  | .readKilled m left got =>
      if state.killed proc then
        some (state.go proc (.readRelease got))
      else
        some (state.go proc (.readUnlock m left got))
  | .readUnlock m left got =>
      some (state.release proc (.readWait m left got))
  | .readWait m left got =>
      if 0 < cons.sem then
        some
          ({ state with cons := { cons with sem := cons.sem - 1 } }.go
            proc (.readTest m left got))
      else
        none
  | .readIndex m left got =>
      some
        (state.go proc (.readByte m left got (cons.readIdx % ibufSize)))
  | .readByte m left got index =>
      some (state.go proc (.readCount m left got (cons.buf index)))
  | .readCount m left got c =>
      some (state.go proc (.readNext m left got c cons.readIdx))
  | .readNext m left got c readIdx =>
      some
        ({ state with
          cons := { cons with readIdx := (readIdx + 1) % usizeSize }
          taken := state.taken ++ [(proc, c)] }.go proc
            (afterByte m left got c))
  | .readBack got =>
      some (state.go proc (.readBackNext got cons.readIdx))
  | .readBackNext got readIdx =>
      some
        ({ state with
          cons :=
            { cons with
              readIdx := (readIdx + usizeSize - 1) % usizeSize }
          taken := state.taken.dropLast }.go proc (.readRelease got))
  | .readRelease _ => some (state.release proc .idle)
  | .intrKill victim =>
      some
        ({ state with
          killed := Function.update state.killed victim true }.go proc
            .intrRelease)
  | .eraseTest whole =>
      some (state.go proc (.eraseTestWrite whole cons.editIdx))
  | .eraseTestWrite whole editIdx =>
      if editIdx = cons.writeIdx then
        some (state.go proc .intrRelease)
      else if whole then
        some (state.go proc .eraseLast)
      else
        some (state.go proc (.eraseCount false))
  | .eraseLast =>
      some (state.go proc (.eraseByte (cons.lastIdx % ibufSize)))
  | .eraseByte index =>
      if cons.buf index = lf then
        some (state.go proc .intrRelease)
      else
        some (state.go proc (.eraseCount true))
  | .eraseCount whole =>
      some (state.go proc (.eraseNext whole cons.editIdx))
  | .eraseNext whole editIdx =>
      some
        ({ state with
          cons :=
            { cons with
              editIdx := (editIdx + usizeSize - 1) % usizeSize }
          pending := state.pending.dropLast }.go proc
            (if whole then .eraseTest true else .intrRelease))
  | .putTest c => some (state.go proc (.putTestRead c cons.editIdx))
  | .putTestRead c editIdx =>
      if (editIdx + usizeSize - cons.readIdx) % usizeSize < ibufSize then
        some (state.go proc (.putIndex (if c = cr then lf else c)))
      else
        some (state.go proc .intrRelease)
  | .putIndex c =>
      some (state.go proc (.putByte c (cons.editIdx % ibufSize)))
  | .putByte c index =>
      some
        ({ state with
          cons :=
            { cons with buf := Function.update cons.buf index c } }.go
              proc (.putCount c))
  | .putCount c => some (state.go proc (.putNext c cons.editIdx))
  | .putNext c editIdx =>
      some
        ({ state with
          cons := { cons with editIdx := (editIdx + 1) % usizeSize }
          pending := state.pending ++ [c] }.go proc
            (if c = lf ∨ c = ctrlD then .commitLoad else .fullTest))
  | .fullTest => some (state.go proc (.fullTestRead cons.editIdx))
  | .fullTestRead editIdx =>
      if editIdx = (cons.readIdx + ibufSize) % usizeSize then
        some (state.go proc .commitLoad)
      else
        some (state.go proc .intrRelease)
  | .commitLoad => some (state.go proc (.commitStore cons.editIdx))
  | .commitStore editIdx =>
      some
        ({ state with
          cons := { cons with writeIdx := editIdx }
          committed := state.committed ++ state.pending
          pending := [] }.go proc .commitPost)
  | .commitPost =>
      some
        ({ state with cons := { cons with sem := cons.sem + 1 } }.go
          proc .intrRelease)
  | .intrRelease => some (state.release proc .idle)

def step (state : State count) (label : Label count) :
    Except Unit (State count) :=
  match label with
  | .call proc call =>
      match state.procs proc with
      | .idle => .ok (state.go proc (.acquire call))
      | _ => .error ()
  | .kill victim =>
      .ok { state with killed := Function.update state.killed victim true }
  | .advance proc =>
      match advance state proc with
      | some target => .ok target
      | none => .error ()

end Steps

/-! ## What the lock is for -/

/-- The next step accesses the console or releases the lock. -/
def Phase.touches : Phase → Bool
  | .idle => false
  | .acquire _ => false
  | .readKilled _ _ _ => false
  | .readWait _ _ _ => false
  | .intrKill _ => false
  | .commitPost => false
  | _ => true

/-- It is between taking the lock and releasing it. -/
def Phase.inside : Phase → Bool
  | .idle => false
  | .acquire _ => false
  | .readWait _ _ _ => false
  | _ => true

/-- The next step is the return of `unalertable_wait_sem`. -/
def Phase.waits : Phase → Bool
  | .readWait _ _ _ => true
  | _ => false

section Specification

variable {count : Nat}

/--
Only the holder of the lock accesses the console or releases the lock;
`read_idx` counts the bytes which have been read and `write_idx` those which
have been committed; and the committed bytes go to one reader each, in order.
-/
structure Delivered (state : State count) : Prop where
  guarded :
    ∀ proc, (state.procs proc).touches = true → state.lock = some proc
  behind : state.taken.length ≤ state.committed.length
  readIdx : state.cons.readIdx = state.taken.length % usizeSize
  writeIdx : state.cons.writeIdx = state.committed.length % usizeSize
  delivered : state.taken.map Prod.snd <+: state.committed

/-- No wait of a reader returns. -/
def Careful (state : State count) : Label count → Prop
  | .advance proc => (state.procs proc).waits = false
  | _ => True

end Specification

/-! ## The invariant -/

section Invariant

variable {count : Nat}

/-- The last byte which was read can be put back. -/
def Returnable (state : State count) (unread : List UInt8) : Prop :=
  ∃ before last,
    state.taken = before ++ [last] ∧
      Contains ibufSize usizeSize state.cons.buf
        (before.length % usizeSize) state.cons.editIdx before.length
        (last.2 :: (unread ++ state.pending))

/-- What the holder of the lock knows about the console. -/
def Phase.Fits (state : State count) (unread : List UInt8) : Phase → Prop
  | .readTestWrite _ _ _ readIdx => readIdx = state.cons.readIdx
  | .readIndex _ _ _ => unread ≠ []
  | .readByte _ _ _ index =>
      unread ≠ [] ∧ index = state.cons.readIdx % ibufSize
  | .readCount _ _ _ c => ∃ rest, unread = c :: rest
  | .readNext _ _ _ c readIdx =>
      (∃ rest, unread = c :: rest) ∧ readIdx = state.cons.readIdx
  | .readBack _ => Returnable state unread
  | .readBackNext _ readIdx =>
      Returnable state unread ∧ readIdx = state.cons.readIdx
  | .eraseTestWrite _ editIdx => editIdx = state.cons.editIdx
  | .eraseLast => state.pending ≠ []
  | .eraseByte _ => state.pending ≠ []
  | .eraseCount _ => state.pending ≠ []
  | .eraseNext _ editIdx =>
      state.pending ≠ [] ∧ editIdx = state.cons.editIdx
  | .putTestRead _ editIdx => editIdx = state.cons.editIdx
  | .putIndex _ => unread.length + state.pending.length < ibufSize
  | .putByte _ index =>
      unread.length + state.pending.length < ibufSize ∧
        index = state.cons.editIdx % ibufSize
  | .putCount c =>
      unread.length + state.pending.length < ibufSize ∧
        state.cons.buf (state.cons.editIdx % ibufSize) = c
  | .putNext c editIdx =>
      unread.length + state.pending.length < ibufSize ∧
        state.cons.buf (state.cons.editIdx % ibufSize) = c ∧
        editIdx = state.cons.editIdx
  | .commitStore editIdx => editIdx = state.cons.editIdx
  | _ => True

/-- The ring holds the bytes which are committed and not read. -/
structure Holds (state : State count) (unread : List UInt8) : Prop where
  ring :
    Contains ibufSize usizeSize state.cons.buf state.cons.readIdx
      state.cons.editIdx state.taken.length (unread ++ state.pending)
  write : state.cons.writeIdx = state.committed.length % usizeSize
  committed : state.committed = state.taken.map Prod.snd ++ unread

/-- What is known of the console when the holder of the lock is at a phase. -/
def Good (state : State count) (phase : Phase) : Prop :=
  ∃ unread, Holds state unread ∧ phase.Fits state unread

def Invariant (state : State count) : Prop :=
  Monitor.Invariant .idle Phase.inside (Good state) state.lock state.procs

/-- Where the processes are does not matter to the console. -/
theorem Good.congr
    {state other : State count}
    {phase : Phase}
    (good : Good state phase)
    (cons : other.cons = state.cons)
    (committed : other.committed = state.committed)
    (pending : other.pending = state.pending)
    (taken : other.taken = state.taken) :
    Good other phase := by
  rcases state with ⟨lock, cons', killed, procs, committed', pending',
    taken'⟩
  rcases other with ⟨lock', cons'', killed', procs', committed'',
    pending'', taken''⟩
  dsimp only at cons committed pending taken
  subst cons committed pending taken
  rcases good with ⟨unread, ⟨ring, write, bytes⟩, fits⟩
  refine ⟨unread, ⟨ring, write, bytes⟩, ?_⟩
  cases phase <;> exact fits

theorem Phase.inside_of_touches
    {phase : Phase}
    (touches : phase.touches = true) :
    phase.inside = true := by
  cases phase <;> first | rfl | cases touches

theorem Invariant.delivered
    {state : State count}
    (invariant : Invariant state) :
    Delivered state := by
  rcases invariant.resource with ⟨unread, holds, -⟩
  have committed := holds.committed
  refine ⟨?_, ?_, holds.ring.read, holds.write, ?_⟩
  · intro proc touches
    exact invariant.guarded proc (Phase.inside_of_touches touches)
  · rw [committed, List.length_append, List.length_map]
    exact Nat.le_add_right _ _
  · rw [committed]
    exact List.prefix_append _ _

theorem invariant_initial : Invariant (initial : State count) := by
  refine ⟨?_, ?_, [], ⟨Contains.empty, rfl, rfl⟩, trivial⟩
  · intro proc inside
    cases inside
  · intro proc owned
    cases owned

end Invariant

/-! ## Every step of the holder -/

section Holder

variable
    {count : Nat}
    {state : State count}
    {proc : Fin count}
    {unread rest : List UInt8}
    {c : UInt8}

/-- The indices agree on an empty queue only. -/
theorem Holds.read_eq_write_iff
    (holds : Holds state unread) :
    state.cons.readIdx = state.cons.writeIdx ↔ unread = [] := by
  have bounded := holds.ring.bounded
  rw [List.length_append] at bounded
  have smaller : ibufSize < usizeSize := by decide
  have compare :
      (state.taken.length + 0) % usizeSize =
          (state.taken.length + unread.length) % usizeSize ↔
        0 = unread.length :=
    mod_add_eq_iff _ (by omega) (by omega)
  rw [holds.ring.read, holds.write, holds.committed, List.length_append,
    List.length_map]
  rw [Nat.add_zero] at compare
  rw [compare, eq_comm, List.length_eq_zero_iff]

/-- The indices agree on an empty line only. -/
theorem Holds.edit_eq_write_iff
    (holds : Holds state unread) :
    state.cons.editIdx = state.cons.writeIdx ↔ state.pending = [] := by
  have bounded := holds.ring.bounded
  rw [List.length_append] at bounded
  have smaller : ibufSize < usizeSize := by decide
  rw [holds.ring.write, holds.write, holds.committed, List.length_append,
    List.length_append, List.length_map,
    mod_add_eq_iff _ (by omega) (by omega), Nat.add_eq_left,
    List.length_eq_zero_iff]

/-- `cons.read_idx++` -/
theorem Holds.take
    (holds : Holds state (c :: rest)) :
    Holds
      { state with
        cons :=
          { state.cons with
            readIdx := (state.cons.readIdx + 1) % usizeSize }
        taken := state.taken ++ [(proc, c)] } rest := by
  refine ⟨?_, holds.write, ?_⟩
  · have popped := holds.ring.pop
    change Contains _ _ _ _ _ (state.taken ++ [(proc, c)]).length _
    rw [List.length_append]
    exact popped
  · change state.committed =
      (state.taken ++ [(proc, c)]).map Prod.snd ++ rest
    rw [List.map_append, List.append_assoc]
    exact holds.committed

/-- The byte which was just read can be put back. -/
theorem Holds.returnable
    (holds : Holds state (c :: rest)) :
    Returnable
      { state with
        cons :=
          { state.cons with
            readIdx := (state.cons.readIdx + 1) % usizeSize }
        taken := state.taken ++ [(proc, c)] } rest := by
  refine ⟨state.taken, (proc, c), rfl, ?_⟩
  rw [← holds.ring.read]
  exact holds.ring

/-- `cons.read_idx--` -/
theorem Holds.putBack
    (holds : Holds state unread)
    (returnable : Returnable state unread) :
    ∃ more,
      Holds
        { state with
          cons :=
            { state.cons with
              readIdx :=
                (state.cons.readIdx + usizeSize - 1) % usizeSize }
          taken := state.taken.dropLast } more := by
  rcases returnable with ⟨before, last, split, contains⟩
  have shorter : state.taken.dropLast = before := by
    rw [split, List.dropLast_concat]
  have readIdx :
      (state.cons.readIdx + usizeSize - 1) % usizeSize =
        before.length % usizeSize := by
    rw [holds.ring.read, split, List.length_append]
    exact mod_succ_pred (by decide) _
  rw [readIdx, shorter]
  refine ⟨last.2 :: unread, contains, holds.write, ?_⟩
  change state.committed = before.map Prod.snd ++ (last.2 :: unread)
  rw [holds.committed, split, List.map_append, List.append_assoc]
  rfl

/-- `cons.edit_idx--` -/
theorem Holds.erase
    (holds : Holds state unread)
    (some : state.pending ≠ [])
    {lastIdx : Nat}
    (isLast :
      lastIdx = (state.cons.editIdx + usizeSize - 1) % usizeSize) :
    Holds
      { state with
        cons := { state.cons with editIdx := lastIdx }
        pending := state.pending.dropLast } unread := by
  refine ⟨?_, holds.write, holds.committed⟩
  rcases List.eq_nil_or_concat state.pending with
    none | ⟨front, last, split⟩
  · exact absurd none some
  · rw [List.concat_eq_append] at split
    have shorter : state.pending.dropLast = front := by
      rw [split, List.dropLast_concat]
    have ring := holds.ring
    rw [split, ← List.append_assoc] at ring
    have erased := ring.unextend (by decide)
    rw [← shorter, ← isLast] at erased
    exact erased

/-- `cons.buf[cons.edit_idx % IBUF_SIZE] = c` -/
theorem Holds.putByte
    (holds : Holds state unread)
    (room : unread.length + state.pending.length < ibufSize)
    (c : UInt8) :
    Holds
      { state with
        cons :=
          { state.cons with
            buf :=
              Function.update state.cons.buf
                (state.cons.editIdx % ibufSize) c } } unread := by
  rw [← List.length_append] at room
  exact ⟨holds.ring.overwrite (by decide) room c, holds.write,
    holds.committed⟩

/-- `cons.edit_idx++` -/
theorem Holds.putNext
    (holds : Holds state unread)
    (room : unread.length + state.pending.length < ibufSize)
    (placed :
      state.cons.buf (state.cons.editIdx % ibufSize) = c) :
    Holds
      { state with
        cons :=
          { state.cons with
            editIdx := (state.cons.editIdx + 1) % usizeSize }
        pending := state.pending ++ [c] } unread := by
  rw [← List.length_append] at room
  refine ⟨?_, holds.write, holds.committed⟩
  change Contains _ _ _ _ _ _ (unread ++ (state.pending ++ [c]))
  rw [← List.append_assoc]
  exact holds.ring.extend (by decide) room placed

/-- `cons.write_idx = cons.edit_idx` -/
theorem Holds.commit
    (holds : Holds state unread) :
    Holds
      { state with
        cons := { state.cons with writeIdx := state.cons.editIdx }
        committed := state.committed ++ state.pending
        pending := [] } (unread ++ state.pending) := by
  refine ⟨?_, ?_, ?_⟩
  · change Contains _ _ _ _ _ _ (unread ++ state.pending ++ [])
    rw [List.append_nil]
    exact holds.ring
  · change state.cons.editIdx =
      (state.committed ++ state.pending).length % usizeSize
    rw [holds.ring.write, holds.committed]
    simp only [List.length_append, List.length_map]
    congr 1
    omega
  · change state.committed ++ state.pending =
      state.taken.map Prod.snd ++ (unread ++ state.pending)
    rw [holds.committed, List.append_assoc]

theorem inside_readFrom
    {m left : Nat}
    {got : List UInt8} :
    (readFrom m got left).inside = true := by
  cases left with
  | zero => rfl
  | succ left => rfl

theorem fits_readFrom
    {m left : Nat}
    {got : List UInt8} :
    (readFrom m got left).Fits state unread := by
  cases left with
  | zero => exact trivial
  | succ left => exact trivial

theorem inside_afterByte
    {m left : Nat}
    {got : List UInt8} :
    (afterByte m left got c).inside = true := by
  unfold afterByte
  split_ifs
  · rfl
  · rfl
  · rfl
  · exact inside_readFrom

theorem fits_afterByte
    (returnable : Returnable state unread)
    {m left : Nat}
    {got : List UInt8} :
    (afterByte m left got c).Fits state unread := by
  unfold afterByte
  split_ifs
  · exact returnable
  · exact trivial
  · exact trivial
  · exact fits_readFrom

theorem inside_start
    {call : Call} :
    call.start.inside = true := by
  cases call with
  | read n => exact inside_readFrom
  | intr c victim =>
      unfold Call.start intrStart
      dsimp only
      split_ifs <;> rfl

theorem fits_start
    {call : Call} :
    call.start.Fits state unread := by
  cases call with
  | read n => exact fits_readFrom
  | intr c victim =>
      unfold Call.start intrStart
      dsimp only
      split_ifs <;> exact trivial

end Holder

section Preservation

variable
    {count : Nat}
    {state target : State count}
    {proc : Fin count}

/-- One step of one which does not come out of a wait. -/
theorem Invariant.advance
    (invariant : Invariant state)
    (careful : (state.procs proc).waits = false)
    (taken : advance state proc = some target) :
    Invariant target := by
  have known :
      (state.procs proc).inside = true →
        Good state (state.procs proc) :=
    fun inside => invariant.resource_of_inside inside
  have goes :
      ∀ {cons : Cons} {killed : Nat → Bool}
        {committed pending : List UInt8}
        {read : List (Fin count × UInt8)} {phase : Phase},
        (state.procs proc).inside = true → phase.inside = true →
          Good ⟨state.lock, cons, killed, state.procs, committed, pending,
            read⟩ phase →
            Invariant
              (State.go ⟨state.lock, cons, killed, state.procs, committed,
                pending, read⟩ proc phase) :=
    fun inside stays good =>
      Monitor.Invariant.go invariant inside stays
        (good.congr rfl rfl rfl rfl)
  have leaves :
      ∀ phase : Phase,
        (state.procs proc).inside = true → phase.inside = false →
          Good state .idle → Invariant (state.release proc phase) :=
    fun phase inside out good =>
      Monitor.Invariant.release invariant inside out
        (good.congr rfl rfl rfl rfl)
  unfold ConsoleReaders.advance at taken
  dsimp only at taken
  cases phase : state.procs proc with
  | idle =>
      rw [phase] at taken
      cases taken
  | acquire call =>
      rw [phase] at taken
      dsimp only at taken
      cases unlocked : state.lock with
      | some other =>
          rw [unlocked] at taken
          cases taken
      | none =>
          rw [unlocked] at taken
          cases taken
          have free :
              Monitor.Invariant .idle Phase.inside (Good state) none
                state.procs := by
            rw [← unlocked]
            exact invariant
          rcases free.resource_of_unlocked with ⟨unread, holds, -⟩
          exact free.acquire inside_start
            ⟨unread, ⟨holds.ring, holds.write, holds.committed⟩,
              fits_start⟩
  | readTest m left got =>
      rw [phase] at taken known goes
      cases taken
      rcases known rfl with ⟨unread, holds, -⟩
      exact goes rfl rfl ⟨unread, holds, rfl⟩
  | readTestWrite m left got readIdx =>
      rw [phase] at taken known goes
      dsimp only at taken
      rcases known rfl with ⟨unread, holds, loaded⟩
      split_ifs at taken with isEmpty
      · cases taken
        exact goes rfl rfl ⟨unread, holds, trivial⟩
      · cases taken
        have more : unread ≠ [] := by
          intro none
          exact isEmpty
            (loaded.trans (holds.read_eq_write_iff.mpr none))
        exact goes rfl rfl ⟨unread, holds, more⟩
  | readKilled m left got =>
      rw [phase] at taken known goes
      dsimp only at taken
      rcases known rfl with ⟨unread, holds, -⟩
      split_ifs at taken
      · cases taken
        exact goes rfl rfl ⟨unread, holds, trivial⟩
      · cases taken
        exact goes rfl rfl ⟨unread, holds, trivial⟩
  | readUnlock m left got =>
      rw [phase] at taken known leaves
      cases taken
      rcases known rfl with ⟨unread, holds, -⟩
      exact leaves _ rfl rfl ⟨unread, holds, trivial⟩
  | readWait m left got =>
      rw [phase] at careful
      cases careful
  | readIndex m left got =>
      rw [phase] at taken known goes
      cases taken
      rcases known rfl with ⟨unread, holds, more⟩
      exact goes rfl rfl ⟨unread, holds, more, rfl⟩
  | readByte m left got index =>
      rw [phase] at taken known goes
      cases taken
      rcases known rfl with ⟨unread, holds, more, same⟩
      subst same
      cases unread with
      | nil => exact absurd rfl more
      | cons c rest =>
          have ring := holds.ring
          rw [List.cons_append] at ring
          have first := ring.front (by decide)
          refine goes rfl rfl ⟨c :: rest, holds, rest, ?_⟩
          rw [first]
  | readCount m left got c =>
      rw [phase] at taken known goes
      cases taken
      rcases known rfl with ⟨unread, holds, first⟩
      exact goes rfl rfl ⟨unread, holds, first, rfl⟩
  | readNext m left got c readIdx =>
      rw [phase] at taken known goes
      cases taken
      rcases known rfl with ⟨unread, holds, ⟨rest, same⟩, loaded⟩
      subst same
      subst loaded
      exact goes rfl inside_afterByte
        ⟨rest, holds.take, fits_afterByte holds.returnable⟩
  | readBack got =>
      rw [phase] at taken known goes
      cases taken
      rcases known rfl with ⟨unread, holds, returnable⟩
      exact goes rfl rfl ⟨unread, holds, returnable, rfl⟩
  | readBackNext got readIdx =>
      rw [phase] at taken known goes
      cases taken
      rcases known rfl with ⟨unread, holds, returnable, loaded⟩
      subst loaded
      rcases holds.putBack returnable with ⟨more, back⟩
      exact goes rfl rfl ⟨more, back, trivial⟩
  | readRelease got =>
      rw [phase] at taken known leaves
      cases taken
      rcases known rfl with ⟨unread, holds, -⟩
      exact leaves _ rfl rfl ⟨unread, holds, trivial⟩
  | intrKill victim =>
      rw [phase] at taken known goes
      cases taken
      rcases known rfl with ⟨unread, holds, -⟩
      exact goes rfl rfl
        ⟨unread, ⟨holds.ring, holds.write, holds.committed⟩, trivial⟩
  | eraseTest whole =>
      rw [phase] at taken known goes
      cases taken
      rcases known rfl with ⟨unread, holds, -⟩
      exact goes rfl rfl ⟨unread, holds, rfl⟩
  | eraseTestWrite whole editIdx =>
      rw [phase] at taken known goes
      dsimp only at taken
      rcases known rfl with ⟨unread, holds, loaded⟩
      split_ifs at taken with isEmpty isWhole
      · cases taken
        exact goes rfl rfl ⟨unread, holds, trivial⟩
      · cases taken
        refine goes rfl rfl ⟨unread, holds, fun none => ?_⟩
        exact isEmpty (loaded.trans (holds.edit_eq_write_iff.mpr none))
      · cases taken
        refine goes rfl rfl ⟨unread, holds, fun none => ?_⟩
        exact isEmpty (loaded.trans (holds.edit_eq_write_iff.mpr none))
  | eraseLast =>
      rw [phase] at taken known goes
      cases taken
      rcases known rfl with ⟨unread, holds, some⟩
      exact goes rfl rfl ⟨unread, holds, some⟩
  | eraseByte index =>
      rw [phase] at taken known goes
      dsimp only at taken
      rcases known rfl with ⟨unread, holds, some⟩
      split_ifs at taken
      · cases taken
        exact goes rfl rfl ⟨unread, holds, trivial⟩
      · cases taken
        exact goes rfl rfl ⟨unread, holds, some⟩
  | eraseCount whole =>
      rw [phase] at taken known goes
      cases taken
      rcases known rfl with ⟨unread, holds, some⟩
      exact goes rfl rfl ⟨unread, holds, some, rfl⟩
  | eraseNext whole editIdx =>
      rw [phase] at taken known goes
      cases taken
      rcases known rfl with ⟨unread, holds, some, loaded⟩
      subst loaded
      have erased := holds.erase some rfl
      cases whole with
      | true => exact goes rfl rfl ⟨unread, erased, trivial⟩
      | false => exact goes rfl rfl ⟨unread, erased, trivial⟩
  | putTest c =>
      rw [phase] at taken known goes
      cases taken
      rcases known rfl with ⟨unread, holds, -⟩
      exact goes rfl rfl ⟨unread, holds, rfl⟩
  | putTestRead c editIdx =>
      rw [phase] at taken known goes
      dsimp only at taken
      rcases known rfl with ⟨unread, holds, loaded⟩
      subst loaded
      rw [holds.ring.distance (by decide), List.length_append] at taken
      split_ifs at taken with room isCr
      · cases taken
        exact goes rfl rfl ⟨unread, holds, room⟩
      · cases taken
        exact goes rfl rfl ⟨unread, holds, room⟩
      · cases taken
        exact goes rfl rfl ⟨unread, holds, trivial⟩
  | putIndex c =>
      rw [phase] at taken known goes
      cases taken
      rcases known rfl with ⟨unread, holds, room⟩
      exact goes rfl rfl ⟨unread, holds, room, rfl⟩
  | putByte c index =>
      rw [phase] at taken known goes
      cases taken
      rcases known rfl with ⟨unread, holds, room, same⟩
      subst same
      refine goes rfl rfl ⟨unread, holds.putByte room c, room, ?_⟩
      exact Function.update_self _ _ _
  | putCount c =>
      rw [phase] at taken known goes
      cases taken
      rcases known rfl with ⟨unread, holds, room, placed⟩
      exact goes rfl rfl ⟨unread, holds, room, placed, rfl⟩
  | putNext c editIdx =>
      rw [phase] at taken known goes
      cases taken
      rcases known rfl with ⟨unread, holds, room, placed, loaded⟩
      subst loaded
      have put := holds.putNext room placed
      split_ifs
      · exact goes rfl rfl ⟨unread, put, trivial⟩
      · exact goes rfl rfl ⟨unread, put, trivial⟩
  | fullTest =>
      rw [phase] at taken known goes
      cases taken
      rcases known rfl with ⟨unread, holds, -⟩
      exact goes rfl rfl ⟨unread, holds, trivial⟩
  | fullTestRead editIdx =>
      rw [phase] at taken known goes
      dsimp only at taken
      rcases known rfl with ⟨unread, holds, -⟩
      split_ifs at taken
      · cases taken
        exact goes rfl rfl ⟨unread, holds, trivial⟩
      · cases taken
        exact goes rfl rfl ⟨unread, holds, trivial⟩
  | commitLoad =>
      rw [phase] at taken known goes
      cases taken
      rcases known rfl with ⟨unread, holds, -⟩
      exact goes rfl rfl ⟨unread, holds, rfl⟩
  | commitStore editIdx =>
      rw [phase] at taken known goes
      cases taken
      rcases known rfl with ⟨unread, holds, loaded⟩
      subst loaded
      exact goes rfl rfl
        ⟨unread ++ state.pending, holds.commit, trivial⟩
  | commitPost =>
      rw [phase] at taken known goes
      cases taken
      rcases known rfl with ⟨unread, holds, -⟩
      exact goes rfl rfl
        ⟨unread, ⟨holds.ring, holds.write, holds.committed⟩, trivial⟩
  | intrRelease =>
      rw [phase] at taken known leaves
      cases taken
      rcases known rfl with ⟨unread, holds, -⟩
      exact leaves _ rfl rfl ⟨unread, holds, trivial⟩

theorem Invariant.of_step
    (invariant : Invariant state)
    {label : Label count}
    (careful : Careful state label)
    (taken : step state label = .ok target) :
    Invariant target := by
  unfold step at taken
  cases label with
  | call proc call =>
      dsimp only at taken
      cases phase : state.procs proc with
      | idle =>
          rw [phase] at taken
          cases taken
          have outside : (state.procs proc).inside = false := by
            rw [phase]
            rfl
          exact Monitor.Invariant.outside invariant outside rfl
            fun held good => good.congr rfl rfl rfl rfl
      | _ =>
          rw [phase] at taken
          cases taken
  | kill victim =>
      cases taken
      exact Monitor.Invariant.mono invariant
        fun held good => good.congr rfl rfl rfl rfl
  | advance proc =>
      dsimp only at taken
      cases moved : ConsoleReaders.advance state proc with
      | none =>
          rw [moved] at taken
          cases taken
      | some next =>
          rw [moved] at taken
          cases taken
          exact invariant.advance careful moved

end Preservation

/--
As long as no wait of a reader returns, only the holder of the lock accesses
the console, and every committed byte goes to one reader.
-/
theorem console_delivers
    {count : Nat}
    {labels : List (Label count)}
    {finish : State count}
    (run : Run (Takes step) Careful initial labels finish) :
    Delivered finish := by
  have invariant : Invariant finish := by
    refine run.invariant invariant_initial ?_
    intro source label target invariant careful taken
    exact invariant.of_step careful taken
  exact invariant.delivered

/-! ## A reader which has to wait -/

instance {count : Nat} (state : State count) (label : Label count) :
    Decidable (Careful state label) :=
  match label with
  | .call _ _ => inferInstanceAs (Decidable True)
  | .kill _ => inferInstanceAs (Decidable True)
  | .advance _ => inferInstanceAs (Decidable (_ = _))

/-- An interrupt for an LF, which is the only character of the line. -/
def newline : List (Label 3) :=
  [.call 2 (.intr lf 0)] ++ List.replicate 11 (.advance 2)

/-- After an interrupt, reader 0 reads the line. -/
def lineThenRead : List (Label 3) :=
  newline ++ [.call 0 (.read 5)] ++ List.replicate 8 (.advance 0)

/--
Reader 0 waits, a line is committed, and the wait of reader 0 returns while the
next interrupt has the lock.
-/
def readerWakes : List (Label 3) :=
  [.call 0 (.read 5)] ++ List.replicate 5 (.advance 0) ++ newline ++
    [.call 2 (.intr 97 0), .advance 2, .advance 0]

theorem console_delivers_line :
    ∃ finish : State 3,
      Run (Takes step) Careful initial lineThenRead finish ∧
        finish.taken = [(0, 10)] ∧ Delivered finish := by
  have computed :
      ((executeChecked step
        (fun state label => decide (Careful state label))
        initial lineThenRead).map State.taken) = some [(0, 10)] := by
    decide +kernel
  rcases Option.map_eq_some_iff.mp computed with ⟨finish, executed, taken⟩
  have run : Run (Takes step) Careful initial lineThenRead finish :=
    Run.of_executeChecked (fun _ _ => of_decide_eq_true) executed
  exact ⟨finish, run, taken, console_delivers run⟩

/-- Reader 0 is about to load `read_idx` while an interrupt has the lock. -/
theorem console_reader_without_lock :
    ∃ finish : State 3,
      Run (Takes step) (fun _ _ => True) initial readerWakes finish ∧
        (finish.procs 0).touches = true ∧ finish.lock = some 2 ∧
        ¬ Delivered finish := by
  have computed :
      ((executeChecked step (fun _ _ => true) initial readerWakes).map
        fun state => ((state.procs 0).touches, state.lock)) =
        some (true, some 2) := by
    decide +kernel
  rcases Option.map_eq_some_iff.mp computed with ⟨finish, executed, values⟩
  have run :
      Run (Takes step) (fun _ _ => True) initial readerWakes finish :=
    Run.of_executeChecked (fun _ _ _ => trivial) executed
  simp only [Prod.mk.injEq] at values
  rcases values with ⟨touches, lock⟩
  refine ⟨finish, run, touches, lock, ?_⟩
  intro delivered
  have owns := delivered.guarded 0 touches
  rw [lock] at owns
  exact absurd owns (by decide)

end FudanOS.Kernel.ConsoleReaders
