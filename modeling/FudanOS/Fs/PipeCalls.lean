import FudanOS.Library.RingBuffer
import FudanOS.Library.Runs

/-!
# Pipes, call by call

`pipe_write`, `pipe_read` and `pipe_close` of `fs/pipe.c` as functions of the
pipe and of what others do to it during the waits of the call.  A call which
does not wait keeps `pi->lock` from its first access to its last one, so such
calls come one after another, and a run is a sequence of them.
-/

namespace FudanOS.Fs.PipeCalls

open FudanOS.Library
open FudanOS.Library.Runs
open FudanOS.Library.RingBuffer

/-! ## The functions -/

/-- `PIPE_SIZE` -/
abbrev pipeSize : Nat := 512

/-- The counters are of type `u32`. -/
abbrev u32Size : Nat := 2 ^ 32

structure Pipe where
  lock : Bool
  /-- The values of the semaphores. -/
  wlock : Nat
  rlock : Nat
  data : Nat → UInt8
  nread : Nat
  nwrite : Nat
  readopen : Bool
  writeopen : Bool

inductive Stop where
  /-- `acquire_spinlock` does not return. -/
  | spins
  /-- `unalertable_wait_sem` puts the caller to sleep. -/
  | sleeps
  /-- The pipe has been given to `kfree`. -/
  | freed
  deriving DecidableEq

/-- `init_pipe` -/
def initPipe : Pipe where
  lock := false
  wlock := 0
  rlock := 0
  data := fun _ => 0
  nread := 0
  nwrite := 0
  readopen := true
  writeopen := true

/-- `acquire_spinlock(&pi->lock)` -/
def acquire (pi : Pipe) : Except Stop Pipe :=
  if pi.lock then .error .spins else .ok { pi with lock := true }

/-- `pi->nwrite == pi->nread + PIPE_SIZE` -/
def Pipe.full (pi : Pipe) : Prop :=
  pi.nwrite = (pi.nread + pipeSize) % u32Size

instance (pi : Pipe) : Decidable pi.full :=
  inferInstanceAs (Decidable (_ = _))

/-- What others do to the pipe during each wait of a call. -/
abbrev Waits := List (Pipe → Pipe)

/--
The inner loop of `pipe_write`.  It is left with `false` when the call returns
`-1`.  After a wait it goes on without the lock, and without a post of `wlock`
it sleeps on.
-/
def whileFull (killed : Bool) :
    Waits → Pipe → Except Stop (Bool × Waits × Pipe)
  | waits, pi =>
      if pi.full then
        if !pi.readopen || killed then
          .ok (false, waits, { pi with lock := false })
        else
          match waits with
          | [] => .error .sleeps
          | others :: waits =>
              let pi :=
                others { pi with rlock := pi.rlock + 1, lock := false }
              if pi.wlock = 0 then
                .error .sleeps
              else
                whileFull killed waits { pi with wlock := pi.wlock - 1 }
      else
        .ok (true, waits, pi)

/-- `pi->data[pi->nwrite % PIPE_SIZE] = byte; pi->nwrite++` -/
def Pipe.put (pi : Pipe) (byte : UInt8) : Pipe :=
  { pi with
    data := Function.update pi.data (pi.nwrite % pipeSize) byte
    nwrite := (pi.nwrite + 1) % u32Size }

/--
The outer loop of `pipe_write`, with the bytes which are left to store.  Beside
what the call returns come the bytes which it has stored.
-/
def writeLoop (killed : Bool) (n : Int) :
    List UInt8 → Waits → Pipe → Except Stop (Int × List UInt8 × Pipe)
  | [], _, pi => .ok (n, [], { pi with rlock := pi.rlock + 1, lock := false })
  | byte :: rest, waits, pi =>
      match whileFull killed waits pi with
      | .error stop => .error stop
      | .ok (false, _, pi) => .ok (-1, [], pi)
      | .ok (true, waits, pi) =>
          match writeLoop killed n rest waits (pi.put byte) with
          | .error stop => .error stop
          | .ok (result, stored, pi) => .ok (result, byte :: stored, pi)

/-- The bytes from `addr` on. -/
def bytesAt (addr : Nat → UInt8) (n : Int) : List UInt8 :=
  (List.range n.toNat).map addr

theorem length_bytesAt (addr : Nat → UInt8) (n : Int) :
    (bytesAt addr n).length = n.toNat := by
  rw [bytesAt, List.length_map, List.length_range]

/-- `pipe_write(pi, addr, n)` -/
def pipeWrite (waits : Waits) (pi : Pipe) (killed : Bool)
    (addr : Nat → UInt8) (n : Int) :
    Except Stop (Int × List UInt8 × Pipe) :=
  match acquire pi with
  | .error stop => .error stop
  | .ok pi => writeLoop killed n (bytesAt addr n) waits pi

/--
The first loop of `pipe_read`.  It is left with `false` when the call returns
`-1`.
-/
def whileEmpty (killed : Bool) :
    Waits → Pipe → Except Stop (Bool × Pipe)
  | waits, pi =>
      if pi.nread = pi.nwrite ∧ pi.writeopen = true then
        if killed then
          .ok (false, { pi with lock := false })
        else
          match waits with
          | [] => .error .sleeps
          | others :: waits =>
              let pi := others { pi with lock := false }
              if pi.rlock = 0 then
                .error .sleeps
              else
                whileEmpty killed waits { pi with rlock := pi.rlock - 1 }
      else
        .ok (true, pi)

/-- The second loop of `pipe_read`, with the number of bytes to go. -/
def readLoop : Nat → Pipe → List UInt8 × Pipe
  | 0, pi => ([], pi)
  | left + 1, pi =>
      if pi.nread = pi.nwrite then
        ([], pi)
      else
        let byte := pi.data (pi.nread % pipeSize)
        let rest :=
          readLoop left { pi with nread := (pi.nread + 1) % u32Size }
        (byte :: rest.1, rest.2)

/--
`pipe_read(pi, addr, n)`.  Beside what the call returns come the bytes which it
has stored at `addr`.
-/
def pipeRead (waits : Waits) (pi : Pipe) (killed : Bool) (n : Int) :
    Except Stop (Int × List UInt8 × Pipe) :=
  match acquire pi with
  | .error stop => .error stop
  | .ok pi =>
      match whileEmpty killed waits pi with
      | .error stop => .error stop
      | .ok (false, pi) => .ok (-1, [], pi)
      | .ok (true, pi) =>
          let got := readLoop n.toNat pi
          .ok (got.1.length, got.1,
            { got.2 with wlock := got.2.wlock + 1, lock := false })

/-- `pipe_close(pi, writable)`, and whether it frees the pipe -/
def pipeClose (pi : Pipe) (writable : Bool) : Except Stop (Bool × Pipe) :=
  match acquire pi with
  | .error stop => .error stop
  | .ok pi =>
      let pi : Pipe :=
        if writable then
          { pi with writeopen := false, rlock := pi.rlock + 1 }
        else
          { pi with readopen := false, wlock := pi.wlock + 1 }
      .ok (!pi.readopen && !pi.writeopen, { pi with lock := false })

/-! ## Sequences of calls -/

/--
The pipe, and all bytes which have been written into it and returned from it.
-/
structure State where
  pipe : Pipe
  freed : Bool
  written : List UInt8
  returned : List UInt8

def initState : State := ⟨initPipe, false, [], []⟩

inductive Call where
  | write (killed : Bool) (addr : Nat → UInt8) (n : Int)
  | read (killed : Bool) (n : Int)
  | close (writable : Bool)

/-- A call which returns without a wait. -/
def step (state : State) (call : Call) : Except Stop State :=
  if state.freed then
    .error .freed
  else
    match call with
    | .write killed addr n =>
        match pipeWrite [] state.pipe killed addr n with
        | .error stop => .error stop
        | .ok (_, stored, pipe) =>
            .ok { state with
              pipe := pipe
              written := state.written ++ stored }
    | .read killed n =>
        match pipeRead [] state.pipe killed n with
        | .error stop => .error stop
        | .ok (_, got, pipe) =>
            .ok { state with
              pipe := pipe
              returned := state.returned ++ got }
    | .close writable =>
        match pipeClose state.pipe writable with
        | .error stop => .error stop
        | .ok (freed, pipe) =>
            .ok { state with pipe := pipe, freed := freed }

/-- `nwrite - nread`, as the processor computes it -/
def Pipe.buffered (pi : Pipe) : Nat :=
  (pi.nwrite + u32Size - pi.nread) % u32Size

/--
The bytes which have been returned are those which have been written, in
order, and the `buffered` bytes which are missing are in the pipe.
-/
def InOrder (state : State) : Prop :=
  ∃ pending, state.written = state.returned ++ pending ∧
    pending.length = state.pipe.buffered ∧
    pending.length ≤ pipeSize

/-- What `pipe_write(addr, n)` may return, and the bytes which it stores. -/
inductive Writes (pi : Pipe) (killed : Bool) (addr : Nat → UInt8) (n : Int) :
    Int → List UInt8 → Prop where
  | whole : Writes pi killed addr n n (bytesAt addr n)
  /-- The pipe is full, and the writer must not wait. -/
  | refused
      (stored : List UInt8)
      (before : ∃ rest, rest ≠ [] ∧ bytesAt addr n = stored ++ rest)
      (full : pi.buffered + stored.length = pipeSize)
      (why : pi.readopen = false ∨ killed = true) :
      Writes pi killed addr n (-1) stored

/-- What `pipe_read(n)` may return and store. -/
inductive Reads (pi : Pipe) (killed : Bool) (n : Int) :
    Int → List UInt8 → Prop where
  /-- It returns what there is, and waits as long as more may come. -/
  | bytes
      (got : List UInt8)
      (many : got.length = min n.toNat pi.buffered)
      (ended : 0 < n → got = [] → pi.buffered = 0 ∧ pi.writeopen = false) :
      Reads pi killed n got.length got
  /-- A process which is killed does not wait. -/
  | interrupted
      (dead : killed = true)
      (nothing : pi.buffered = 0)
      (more : pi.writeopen = true) :
      Reads pi killed n (-1) []

/-! ## What a call does to the ring -/

/-- The pipe holds `items`, after `taken` bytes have been taken out. -/
def Pipe.Holds (pi : Pipe) (taken : Nat) (items : List UInt8) : Prop :=
  Contains pipeSize u32Size pi.data pi.nread pi.nwrite taken items

/-- The bytes and the counters of two pipes are the same. -/
structure SameRing (pi other : Pipe) : Prop where
  data : other.data = pi.data
  nread : other.nread = pi.nread
  nwrite : other.nwrite = pi.nwrite

theorem SameRing.refl (pi : Pipe) : SameRing pi pi :=
  ⟨rfl, rfl, rfl⟩

theorem SameRing.holds
    {pi other : Pipe}
    {taken : Nat}
    {items : List UInt8}
    (same : SameRing pi other)
    (holds : pi.Holds taken items) :
    other.Holds taken items := by
  unfold Pipe.Holds
  rw [same.data, same.nread, same.nwrite]
  exact holds

theorem pipeSize_lt_u32Size : pipeSize < u32Size := by decide

theorem pipeSize_dvd_u32Size : pipeSize ∣ u32Size := by decide

section Ring

variable
    {pi target : Pipe}
    {taken : Nat}
    {items : List UInt8}

theorem Pipe.Holds.full_iff
    (holds : pi.Holds taken items) :
    pi.full ↔ items.length = pipeSize :=
  holds.write_eq_read_add_iff pipeSize_lt_u32Size

theorem Pipe.Holds.empty_iff
    (holds : pi.Holds taken items) :
    pi.nread = pi.nwrite ↔ items = [] :=
  holds.read_eq_write_iff pipeSize_lt_u32Size

theorem Pipe.Holds.buffered
    (holds : pi.Holds taken items) :
    pi.buffered = items.length :=
  holds.distance pipeSize_lt_u32Size

/-- A byte is stored in a pipe which is not full. -/
theorem Pipe.Holds.put
    (holds : pi.Holds taken items)
    (room : ¬ pi.full)
    (byte : UInt8) :
    (pi.put byte).Holds taken (items ++ [byte]) := by
  have shorter : items.length < pipeSize :=
    Nat.lt_of_le_of_ne holds.bounded fun same =>
      room (holds.full_iff.mpr same)
  have stored := holds.overwrite pipeSize_dvd_u32Size shorter byte
  exact stored.extend pipeSize_dvd_u32Size shorter
    (Function.update_self _ _ _)

/-- The writer goes on with a pipe which is not full, and as it is. -/
theorem whileFull_cases
    {killed goes : Bool}
    {waits : Waits}
    (left : whileFull killed [] pi = .ok (goes, waits, target)) :
    (goes = true → ¬ pi.full ∧ target = pi ∧ waits = []) ∧
      (goes = false →
        pi.full ∧ (pi.readopen = false ∨ killed = true) ∧
          SameRing pi target) := by
  unfold whileFull at left
  split_ifs at left with full fails
  · cases left
    rw [Bool.or_eq_true, Bool.not_eq_true'] at fails
    exact ⟨nofun, fun _ => ⟨full, fails, ⟨rfl, rfl, rfl⟩⟩⟩
  · cases left
    exact ⟨fun _ => ⟨full, rfl, rfl⟩, nofun⟩

/--
What `pipe_write` has stored is behind what there was.  It stores everything,
or it stops at a full pipe.
-/
theorem Pipe.Holds.writeLoop
    {killed : Bool}
    {n result : Int}
    {bytes stored : List UInt8}
    (holds : pi.Holds taken items)
    (wrote :
      writeLoop killed n bytes [] pi = .ok (result, stored, target)) :
    target.Holds taken (items ++ stored) ∧
      (result = n ∧ stored = bytes ∨
        result = -1 ∧ (∃ rest, rest ≠ [] ∧ bytes = stored ++ rest) ∧
          items.length + stored.length = pipeSize ∧
          (pi.readopen = false ∨ killed = true)) := by
  induction bytes generalizing pi items stored with
  | nil =>
      unfold PipeCalls.writeLoop at wrote
      cases wrote
      rw [List.append_nil]
      exact ⟨SameRing.holds ⟨rfl, rfl, rfl⟩ holds, Or.inl ⟨rfl, rfl⟩⟩
  | cons byte rest ih =>
      unfold PipeCalls.writeLoop at wrote
      split at wrote
      · cases wrote
      · rename_i next left
        cases wrote
        rcases (whileFull_cases left).2 rfl with ⟨full, why, same⟩
        rw [List.append_nil]
        refine ⟨same.holds holds, Or.inr ⟨rfl, ?_, ?_, why⟩⟩
        · exact ⟨byte :: rest, List.cons_ne_nil _ _, rfl⟩
        · exact holds.full_iff.mp full
      · rename_i next left
        rcases (whileFull_cases left).1 rfl with ⟨room, rfl, rfl⟩
        split at wrote
        · cases wrote
        · rename_i later written wroteRest
          cases wrote
          rcases ih (holds.put room byte) wroteRest with ⟨after, how⟩
          rw [List.append_assoc, List.singleton_append] at after
          refine ⟨after, ?_⟩
          rcases how with ⟨done, all⟩ | ⟨failed, front, full, why⟩
          · exact Or.inl ⟨done, by rw [all]⟩
          · rcases front with ⟨left, some, bytesEq⟩
            refine Or.inr ⟨failed, ⟨left, some, ?_⟩, ?_, why⟩
            · rw [bytesEq, List.cons_append]
            · rw [List.length_append, List.length_singleton] at full
              rw [List.length_cons]
              omega

/-- The second loop of `pipe_read` takes the first bytes out. -/
theorem Pipe.Holds.readLoop
    (holds : pi.Holds taken items)
    (left : Nat) :
    (readLoop left pi).1 = items.take left ∧
      (readLoop left pi).2.Holds (taken + (items.take left).length)
        (items.drop left) := by
  induction left generalizing pi taken items with
  | zero =>
      exact ⟨rfl, holds⟩
  | succ left ih =>
      cases items with
      | nil =>
          have none : pi.nread = pi.nwrite := holds.empty_iff.mpr rfl
          unfold PipeCalls.readLoop
          rw [if_pos none]
          exact ⟨rfl, holds⟩
      | cons byte rest =>
          have some : ¬ pi.nread = pi.nwrite := fun none =>
            List.cons_ne_nil _ _ (holds.empty_iff.mp none)
          have first : pi.data (pi.nread % pipeSize) = byte :=
            holds.front pipeSize_dvd_u32Size
          have popped :
              Pipe.Holds
                { pi with nread := (pi.nread + 1) % u32Size }
                (taken + 1) rest :=
            holds.pop
          rcases ih popped with ⟨got, after⟩
          unfold PipeCalls.readLoop
          rw [if_neg some]
          dsimp only
          refine ⟨?_, ?_⟩
          · rw [first, got, List.take_succ_cons]
          · rw [List.take_succ_cons, List.length_cons, List.drop_succ_cons]
            have total :
                taken + ((rest.take left).length + 1) =
                  taken + 1 + (rest.take left).length := by
              omega
            rw [total]
            exact after

/-- The reader goes on when there are bytes, or when no more can come. -/
theorem whileEmpty_cases
    {killed goes : Bool}
    (left : whileEmpty killed [] pi = .ok (goes, target)) :
    (goes = true →
        ¬ (pi.nread = pi.nwrite ∧ pi.writeopen = true) ∧ target = pi) ∧
      (goes = false →
        (pi.nread = pi.nwrite ∧ pi.writeopen = true) ∧ killed = true ∧
          SameRing pi target) := by
  unfold whileEmpty at left
  split_ifs at left with waits dead
  · cases left
    exact ⟨nofun, fun _ => ⟨waits, dead, ⟨rfl, rfl, rfl⟩⟩⟩
  · cases left
    exact ⟨fun _ => ⟨waits, rfl⟩, nofun⟩

theorem acquire_ok
    (acquired : acquire pi = .ok target) :
    target = { pi with lock := true } := by
  unfold acquire at acquired
  split_ifs at acquired
  cases acquired
  rfl

theorem Pipe.Holds.pipeWrite
    {killed : Bool}
    {addr : Nat → UInt8}
    {n result : Int}
    {stored : List UInt8}
    (holds : pi.Holds taken items)
    (wrote : pipeWrite [] pi killed addr n = .ok (result, stored, target)) :
    target.Holds taken (items ++ stored) ∧
      Writes pi killed addr n result stored := by
  unfold PipeCalls.pipeWrite at wrote
  split at wrote
  · cases wrote
  · rename_i locked acquired
    rw [acquire_ok acquired] at wrote
    have lockedHolds :
        Pipe.Holds { pi with lock := true } taken items :=
      SameRing.holds ⟨rfl, rfl, rfl⟩ holds
    rcases lockedHolds.writeLoop wrote with ⟨after, how⟩
    refine ⟨after, ?_⟩
    rcases how with ⟨rfl, rfl⟩ | ⟨rfl, before, full, why⟩
    · exact Writes.whole
    · refine Writes.refused stored before ?_ why
      rw [holds.buffered, full]

/-- What `pipe_read` returns and takes out, and what it leaves. -/
theorem Pipe.Holds.pipeRead
    {killed : Bool}
    {n result : Int}
    {got : List UInt8}
    (holds : pi.Holds taken items)
    (read : pipeRead [] pi killed n = .ok (result, got, target)) :
    (∃ rest, items = got ++ rest ∧
        target.Holds (taken + got.length) rest) ∧
      Reads pi killed n result got := by
  unfold PipeCalls.pipeRead at read
  split at read
  · cases read
  · rename_i locked acquired
    have same : SameRing pi locked := by
      rw [acquire_ok acquired]
      exact ⟨rfl, rfl, rfl⟩
    have lockedHolds : locked.Holds taken items := same.holds holds
    have opened : locked.writeopen = pi.writeopen := by
      rw [acquire_ok acquired]
    split at read
    · cases read
    · rename_i next left
      cases read
      rcases (whileEmpty_cases left).2 rfl with
        ⟨⟨empty, more⟩, dead, unchanged⟩
      have nothing : items = [] := lockedHolds.empty_iff.mp empty
      refine ⟨⟨items, rfl, unchanged.holds lockedHolds⟩, ?_⟩
      refine Reads.interrupted dead ?_ (opened ▸ more)
      rw [holds.buffered, nothing, List.length_nil]
    · rename_i next left
      rcases (whileEmpty_cases left).1 rfl with ⟨goes, rfl⟩
      cases read
      rcases lockedHolds.readLoop n.toNat with ⟨taken', after⟩
      rw [taken']
      constructor
      · exact ⟨items.drop n.toNat, (List.take_append_drop _ _).symm, after⟩
      · refine Reads.bytes _ ?_ ?_
        · rw [List.length_take, holds.buffered]
        · intro positive none
          have nothing : items = [] := by
            rcases List.take_eq_nil_iff.mp none with zero | nothing
            · omega
            · exact nothing
          constructor
          · rw [holds.buffered, nothing, List.length_nil]
          · have empty := lockedHolds.empty_iff.mpr nothing
            rw [← opened]
            exact Bool.eq_false_of_not_eq_true fun more =>
              goes ⟨empty, more⟩

theorem Pipe.Holds.pipeClose
    {writable freed : Bool}
    (holds : pi.Holds taken items)
    (closed : pipeClose pi writable = .ok (freed, target)) :
    target.Holds taken items := by
  unfold PipeCalls.pipeClose at closed
  split at closed
  · cases closed
  · rename_i locked acquired
    rw [acquire_ok acquired] at closed
    cases closed
    cases writable
    · exact SameRing.holds ⟨rfl, rfl, rfl⟩ holds
    · exact SameRing.holds ⟨rfl, rfl, rfl⟩ holds

end Ring

/-! ## The ends -/

/-- The ends of two pipes are open alike. -/
structure SameEnds (pi other : Pipe) : Prop where
  readopen : other.readopen = pi.readopen
  writeopen : other.writeopen = pi.writeopen

theorem SameEnds.trans
    {pi middle other : Pipe}
    (first : SameEnds pi middle)
    (second : SameEnds middle other) :
    SameEnds pi other :=
  ⟨second.readopen.trans first.readopen,
    second.writeopen.trans first.writeopen⟩

/-- Nobody closes an end during a wait. -/
def KeepEnds (waits : Waits) : Prop :=
  ∀ others ∈ waits, ∀ pi, SameEnds pi (others pi)

section Ends

variable
    {pi target : Pipe}
    {waits left : Waits}
    {killed goes : Bool}

theorem whileFull_ends
    (keep : KeepEnds waits)
    (ran : whileFull killed waits pi = .ok (goes, left, target)) :
    SameEnds pi target ∧ KeepEnds left := by
  induction waits generalizing pi with
  | nil =>
      unfold whileFull at ran
      split_ifs at ran with full fails
      · cases ran
        exact ⟨⟨rfl, rfl⟩, keep⟩
      · cases ran
        exact ⟨⟨rfl, rfl⟩, keep⟩
  | cons others waits ih =>
      have rest : KeepEnds waits := fun other member =>
        keep other (List.mem_cons_of_mem _ member)
      unfold whileFull at ran
      split_ifs at ran with full fails
      · cases ran
        exact ⟨⟨rfl, rfl⟩, keep⟩
      · dsimp only at ran
        split_ifs at ran
        have waited :=
          keep others List.mem_cons_self
            { pi with rlock := pi.rlock + 1, lock := false }
        rcases ih rest ran with ⟨same, keeps⟩
        refine ⟨?_, keeps⟩
        exact ⟨same.readopen.trans waited.readopen,
          same.writeopen.trans waited.writeopen⟩
      · cases ran
        exact ⟨⟨rfl, rfl⟩, keep⟩

theorem writeLoop_ends
    {n result : Int}
    {bytes stored : List UInt8}
    (keep : KeepEnds waits)
    (wrote : writeLoop killed n bytes waits pi = .ok (result, stored, target)) :
    SameEnds pi target := by
  induction bytes generalizing pi waits stored with
  | nil =>
      unfold writeLoop at wrote
      cases wrote
      exact ⟨rfl, rfl⟩
  | cons byte rest ih =>
      unfold writeLoop at wrote
      split at wrote
      · cases wrote
      · rename_i next ran
        cases wrote
        exact (whileFull_ends keep ran).1
      · rename_i next ran
        rcases whileFull_ends keep ran with ⟨same, keeps⟩
        split at wrote
        · cases wrote
        · rename_i later written wroteRest
          cases wrote
          have after := ih keeps wroteRest
          exact same.trans ⟨after.readopen, after.writeopen⟩

/-- `pipe_write` does not close an end. -/
theorem pipeWrite_ends
    {addr : Nat → UInt8}
    {n result : Int}
    {stored : List UInt8}
    (keep : KeepEnds waits)
    (wrote :
      pipeWrite waits pi killed addr n = .ok (result, stored, target)) :
    SameEnds pi target := by
  unfold pipeWrite at wrote
  split at wrote
  · cases wrote
  · rename_i locked acquired
    rw [acquire_ok acquired] at wrote
    have after := writeLoop_ends keep wrote
    exact ⟨after.readopen, after.writeopen⟩

theorem whileEmpty_ends
    (keep : KeepEnds waits)
    (ran : whileEmpty killed waits pi = .ok (goes, target)) :
    SameEnds pi target := by
  induction waits generalizing pi with
  | nil =>
      unfold whileEmpty at ran
      split_ifs at ran with empty dead
      · cases ran
        exact ⟨rfl, rfl⟩
      · cases ran
        exact ⟨rfl, rfl⟩
  | cons others waits ih =>
      have rest : KeepEnds waits := fun other member =>
        keep other (List.mem_cons_of_mem _ member)
      unfold whileEmpty at ran
      split_ifs at ran with empty dead
      · cases ran
        exact ⟨rfl, rfl⟩
      · dsimp only at ran
        split_ifs at ran
        have waited :=
          keep others List.mem_cons_self { pi with lock := false }
        have same := ih rest ran
        exact ⟨same.readopen.trans waited.readopen,
          same.writeopen.trans waited.writeopen⟩
      · cases ran
        exact ⟨rfl, rfl⟩

theorem readLoop_ends
    (left : Nat)
    (pi : Pipe) :
    SameEnds pi (readLoop left pi).2 := by
  induction left generalizing pi with
  | zero => exact ⟨rfl, rfl⟩
  | succ left ih =>
      unfold readLoop
      split_ifs
      · exact ⟨rfl, rfl⟩
      · have after := ih { pi with nread := (pi.nread + 1) % u32Size }
        exact ⟨after.readopen, after.writeopen⟩

/-- `pipe_read` does not close an end. -/
theorem pipeRead_ends
    {n result : Int}
    {got : List UInt8}
    (keep : KeepEnds waits)
    (took : pipeRead waits pi killed n = .ok (result, got, target)) :
    SameEnds pi target := by
  unfold pipeRead at took
  split at took
  · cases took
  · rename_i locked acquired
    rw [acquire_ok acquired] at took
    split at took
    · cases took
    · rename_i left ran
      cases took
      have after := whileEmpty_ends keep ran
      exact ⟨after.readopen, after.writeopen⟩
    · rename_i left ran
      cases took
      have after := whileEmpty_ends keep ran
      have drained := readLoop_ends n.toNat left
      exact ⟨drained.readopen.trans after.readopen,
        drained.writeopen.trans after.writeopen⟩

end Ends

/-! ## Every sequence of calls -/

/-- The pipe holds what has been written and not returned. -/
def Invariant (state : State) : Prop :=
  ∃ pending, state.written = state.returned ++ pending ∧
    state.pipe.Holds state.returned.length pending

theorem invariant_initState : Invariant initState :=
  ⟨[], rfl, Contains.empty⟩

theorem Invariant.inOrder
    {state : State}
    (invariant : Invariant state) :
    InOrder state := by
  rcases invariant with ⟨pending, total, holds⟩
  exact ⟨pending, total, holds.buffered.symm, holds.bounded⟩

theorem Invariant.of_step
    {source target : State}
    {call : Call}
    (invariant : Invariant source)
    (taken : Takes step source call target) :
    Invariant target := by
  rcases invariant with ⟨pending, total, holds⟩
  unfold Takes step at taken
  split_ifs at taken
  cases call with
  | write killed addr n =>
      dsimp only at taken
      split at taken
      · cases taken
      · rename_i result stored pipe wrote
        cases taken
        refine ⟨pending ++ stored, ?_, (holds.pipeWrite wrote).1⟩
        dsimp only
        rw [total, List.append_assoc]
  | read killed n =>
      dsimp only at taken
      split at taken
      · cases taken
      · rename_i result got pipe read
        cases taken
        rcases (holds.pipeRead read).1 with ⟨rest, same, after⟩
        refine ⟨rest, ?_, ?_⟩
        · dsimp only
          rw [total, same, List.append_assoc]
        · dsimp only
          rw [List.length_append]
          exact after
  | close writable =>
      dsimp only at taken
      split at taken
      · cases taken
      · rename_i freed pipe closed
        cases taken
        exact ⟨pending, total, holds.pipeClose closed⟩

/--
After every sequence of calls which return, what has been read is what has been
written without the bytes which are in the pipe, and the next `pipe_read`
returns what there is.  The bytes written are those of the calls which return
their number, and what others have stored before they found the pipe full.
-/
theorem pipe_fifo
    {calls : List Call}
    {finish : State}
    (run : Run (Takes step) (fun _ _ => True) initState calls finish) :
    InOrder finish ∧
      (∀ killed addr n result stored target,
        pipeWrite [] finish.pipe killed addr n = .ok (result, stored, target) →
          Writes finish.pipe killed addr n result stored) ∧
      (∀ killed n result got target,
        pipeRead [] finish.pipe killed n = .ok (result, got, target) →
          Reads finish.pipe killed n result got) := by
  have invariant : Invariant finish :=
    run.invariant invariant_initState fun _ _ _ before _ taken =>
      before.of_step taken
  refine ⟨invariant.inOrder, ?_⟩
  rcases invariant with ⟨pending, total, holds⟩
  constructor
  · intro killed addr n result stored target wrote
    exact (holds.pipeWrite wrote).2
  · intro killed n result got target read
    exact (holds.pipeRead read).2

/-- Two bytes go in, and a process which wants three gets two. -/
def twoBytes : List Call :=
  [.write false (fun index => UInt8.ofNat (index + 7)) 2, .read false 3]

theorem pipe_fifo_two_bytes :
    ∃ finish : State,
      Run (Takes step) (fun _ _ => True) initState twoBytes finish ∧
        finish.returned = [7, 8] ∧ InOrder finish := by
  have computed :
      ((executeChecked step (fun _ _ => true) initState twoBytes).map
        State.returned) = some [7, 8] := by
    decide +kernel
  rcases Option.map_eq_some_iff.mp computed with
    ⟨finish, executed, returned⟩
  have run : Run (Takes step) (fun _ _ => True) initState twoBytes finish :=
    Run.of_executeChecked (fun _ _ _ => trivial) executed
  exact ⟨finish, run, returned, (pipe_fifo run).1⟩

/--
A reader which is killed gets `-1` from an empty pipe, not the number of bytes
which are there.
-/
theorem killed_reader :
    Run (Takes step) (fun _ _ => True) initState [] initState ∧
      ∃ target,
        pipeRead [] initState.pipe true 5 = .ok (-1, [], target) ∧
          (-1 : Int) ≠ min 5 initState.pipe.buffered := by
  refine ⟨Run.nil, { initPipe with lock := false }, rfl, ?_⟩
  decide

end FudanOS.Fs.PipeCalls
