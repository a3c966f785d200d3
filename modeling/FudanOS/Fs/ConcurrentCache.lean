import FudanOS.Fs.Eviction
import FudanOS.Library.Runs

/-!
# Interleaved calls of the block cache

Any number of threads run `cache_acquire`, `cache_release` and `cache_sync` of
`fs/cache.c`.  A step is a section under the global lock, the device read of a
miss, or the wait on the sleep lock of a block.  Blocks are objects on the
heap: a `Block *` is an address, `kalloc` returns fresh ones, and a freed
object keeps its fields, so that a use after `kfree` stays visible.

Three fields are not in the source.  `freed` lists the addresses passed to
`kfree`.  `entrants` lists, for each block, the threads which found it in the
list and have not yet returned from `cache_acquire`.  `handed` marks a block
whose last release happened while such a thread existed and which no thread
has found in the list since.  `latest` is what was last read or written for a
block number.
-/

namespace FudanOS.Fs.ConcurrentCache

open FudanOS.Fs.Defines
open FudanOS.Fs.Eviction

/-- A `Block`; the sleep lock is its value and its sleeping threads. -/
structure Block (Thread : Type) where
  blockNo : BlockNo
  acquired : Bool
  pinned : Bool
  val : Int
  sleeplist : List Thread
  data : BlockData

/-- Where a thread is in `cache_acquire`. -/
inductive Pc where
  /-- Not inside `cache_acquire`. -/
  | idle
  /-- The block was found and marked; the wait on its lock comes next. -/
  | found (block : Nat)
  /-- On the sleep list of the block. -/
  | sleeping (block : Nat)
  /-- The lock is taken; moving the block to the front comes next. -/
  | granted (block : Nat)
  /-- A fresh block; its device read comes next. -/
  | loading (block : Nat)
  /-- A fresh block with its data; inserting it comes next. -/
  | loaded (block : Nat)
  deriving DecidableEq

/-- The static variables of `cache.c`, the heap and the threads. -/
structure State (Thread : Type) where
  blocks : Nat → Block Thread
  /-- The next address which `kalloc` returns. -/
  next : Nat
  /-- The list behind `head`, most recently acquired first. -/
  head : List Nat
  blockNum : Nat
  pc : Thread → Pc
  /-- The blocks which threads got from `cache_acquire`. -/
  holders : List (Thread × Nat)
  freed : List Nat
  entrants : Nat → List Thread
  handed : Nat → Bool
  latest : Disk

/-- A step of a thread. -/
inductive Label (Thread : Type) where
  /-- The first section of `cache_acquire(block_no)`. -/
  | search (thread : Thread) (blockNo : BlockNo)
  /-- `wait_sem(&blk->lock)` -/
  | wait (thread : Thread)
  /-- The second section of a hit. -/
  | moveToFront (thread : Thread)
  /-- `device_read(blk)` -/
  | deviceRead (thread : Thread)
  /-- The second section of a miss. -/
  | insert (thread : Thread)
  /-- `cache_release(block)` -/
  | release (thread : Thread) (block : Nat)
  /-- `cache_sync(ctx, block)`, as far as it touches the block. -/
  | sync (thread : Thread) (block : Nat)
  /-- The holder of a block writes to it. -/
  | modify (thread : Thread) (block : Nat) (data : BlockData)

/-- Why a thread cannot take a step: it is elsewhere, or an `ASSERT` fails. -/
inductive Refusal where
  | elsewhere
  | assertion
  deriving DecidableEq

/-- Nothing cached, nothing running. -/
def State.init {Thread : Type} (disk : Disk) : State Thread where
  blocks := fun _ => ⟨0, false, false, 1, [], fun _ => 0⟩
  next := 0
  head := []
  blockNum := 0
  pc := fun _ => .idle
  holders := []
  freed := []
  entrants := fun _ => []
  handed := fun _ => false
  latest := disk

variable {Thread : Type} [DecidableEq Thread]

/-- The search of `cache_acquire` through the list. -/
def State.lookup (state : State Thread) (blockNo : BlockNo) : Option Nat :=
  state.head.find? fun block => (state.blocks block).blockNo == blockNo

/-- The blocks which the eviction loop may drop. -/
def State.evictable (state : State Thread) (block : Nat) : Bool :=
  !(state.blocks block).acquired && !(state.blocks block).pinned

/-- A fresh block of a miss, its lock taken by the thread which allocated it. -/
def freshBlock (blockNo : BlockNo) : Block Thread where
  blockNo := blockNo
  acquired := true
  pinned := false
  val := 0
  sleeplist := []
  data := fun _ => 0

/-- What a miss leaves of the list, and its length. -/
def State.remaining (state : State Thread) : Nat × List Nat :=
  evict state.evictable state.blockNum state.head

/-- The search section for a block which is in the list. -/
def State.hit (state : State Thread) (thread : Thread) (block : Nat) :
    State Thread :=
  { state with
    blocks :=
      Function.update state.blocks block
        { state.blocks block with acquired := true }
    pc := Function.update state.pc thread (.found block)
    entrants :=
      Function.update state.entrants block
        (thread :: state.entrants block)
    handed := Function.update state.handed block false }

/-- The search section for a block which is not in the list. -/
def State.miss (state : State Thread) (thread : Thread)
    (blockNo : BlockNo) : State Thread :=
  { state with
    blocks :=
      Function.update state.blocks state.next (freshBlock blockNo)
    next := state.next + 1
    head := state.remaining.2
    blockNum := state.remaining.1 + 1
    pc := Function.update state.pc thread (.loading state.next)
    freed :=
      state.freed ++
        state.head.filter fun block => decide (block ∉ state.remaining.2) }

/-- A wait which takes the lock at once. -/
def State.take (state : State Thread) (thread : Thread) (block : Nat) :
    State Thread :=
  { state with
    blocks :=
      Function.update state.blocks block
        { state.blocks block with val := (state.blocks block).val - 1 }
    pc := Function.update state.pc thread (.granted block) }

/-- A wait which goes to sleep. -/
def State.sleep (state : State Thread) (thread : Thread) (block : Nat) :
    State Thread :=
  { state with
    blocks :=
      Function.update state.blocks block
        { state.blocks block with
          val := (state.blocks block).val - 1
          sleeplist := (state.blocks block).sleeplist ++ [thread] }
    pc := Function.update state.pc thread (.sleeping block) }

/-- `cache_release` of a block for which no thread sleeps. -/
def State.unlock (state : State Thread) (thread : Thread) (block : Nat) :
    State Thread :=
  { state with
    blocks :=
      Function.update state.blocks block
        { state.blocks block with
          acquired := false
          val := (state.blocks block).val + 1 }
    holders := state.holders.erase (thread, block)
    handed :=
      Function.update state.handed block
        (decide (state.entrants block ≠ [])) }

/-- `cache_release` which wakes the first sleeping thread. -/
def State.wake (state : State Thread) (thread : Thread) (block : Nat)
    (first : Thread) (rest : List Thread) : State Thread :=
  { state with
    blocks :=
      Function.update state.blocks block
        { state.blocks block with
          acquired := false
          val := (state.blocks block).val + 1
          sleeplist := rest }
    pc := Function.update state.pc first (.granted block)
    holders := state.holders.erase (thread, block)
    handed :=
      Function.update state.handed block
        (decide (state.entrants block ≠ [])) }

/-- Return from `cache_acquire` with the block in front of the others. -/
def State.enter (state : State Thread) (thread : Thread) (block : Nat)
    (others : List Nat) : State Thread :=
  { state with
    head := block :: others
    pc := Function.update state.pc thread .idle
    holders := (thread, block) :: state.holders
    entrants :=
      Function.update state.entrants block
        ((state.entrants block).erase thread) }

/-- The device read of a miss. -/
def State.read (state : State Thread) (disk : Disk) (thread : Thread)
    (block : Nat) : State Thread :=
  { state with
    blocks :=
      Function.update state.blocks block
        { state.blocks block with
          data := disk (state.blocks block).blockNo }
    pc := Function.update state.pc thread (.loaded block)
    latest :=
      Function.update state.latest (state.blocks block).blockNo
        (disk (state.blocks block).blockNo) }

/-- `block->pinned = 1` -/
def State.pin (state : State Thread) (block : Nat) : State Thread :=
  { state with
    blocks :=
      Function.update state.blocks block
        { state.blocks block with pinned := true } }

/-- A write to the data of a block. -/
def State.write (state : State Thread) (block : Nat) (data : BlockData) :
    State Thread :=
  { state with
    blocks :=
      Function.update state.blocks block
        { state.blocks block with data := data }
    latest :=
      Function.update state.latest (state.blocks block).blockNo data }

/-- One step. -/
def step (disk : Disk) (state : State Thread) :
    Label Thread → Except Refusal (State Thread)
  | .search thread blockNo =>
      match state.pc thread with
      | .idle =>
          match state.lookup blockNo with
          | some block => .ok (state.hit thread block)
          | none => .ok (state.miss thread blockNo)
      | _ => .error .elsewhere
  | .wait thread =>
      match state.pc thread with
      | .found block =>
          if 0 ≤ (state.blocks block).val - 1 then
            .ok (state.take thread block)
          else
            .ok (state.sleep thread block)
      | _ => .error .elsewhere
  | .moveToFront thread =>
      match state.pc thread with
      | .granted block =>
          .ok (state.enter thread block (state.head.erase block))
      | _ => .error .elsewhere
  | .deviceRead thread =>
      match state.pc thread with
      | .loading block => .ok (state.read disk thread block)
      | _ => .error .elsewhere
  | .insert thread =>
      match state.pc thread with
      | .loaded block => .ok (state.enter thread block state.head)
      | _ => .error .elsewhere
  | .release thread block =>
      if state.pc thread = .idle ∧ (thread, block) ∈ state.holders then
        if (state.blocks block).val + 1 ≤ 0 then
          match (state.blocks block).sleeplist with
          | first :: rest => .ok (state.wake thread block first rest)
          | [] => .error .assertion
        else
          .ok (state.unlock thread block)
      else
        .error .elsewhere
  | .sync thread block =>
      if state.pc thread = .idle ∧ (thread, block) ∈ state.holders then
        .ok (state.pin block)
      else
        .error .elsewhere
  | .modify thread block data =>
      if state.pc thread = .idle ∧ (thread, block) ∈ state.holders then
        .ok (state.write block data)
      else
        .error .elsewhere

/-- Everything a step can do, with what it tells about the state before. -/
inductive Moves (disk : Disk) (state : State Thread) :
    Label Thread → State Thread → Prop where
  | hit
      (idle : state.pc thread = .idle)
      (found : state.lookup blockNo = some block) :
      Moves disk state (.search thread blockNo) (state.hit thread block)
  | miss
      (idle : state.pc thread = .idle)
      (missing : state.lookup blockNo = none) :
      Moves disk state (.search thread blockNo) (state.miss thread blockNo)
  | take
      (found : state.pc thread = .found block)
      (free : 0 ≤ (state.blocks block).val - 1) :
      Moves disk state (.wait thread) (state.take thread block)
  | sleep
      (found : state.pc thread = .found block)
      (taken : ¬ 0 ≤ (state.blocks block).val - 1) :
      Moves disk state (.wait thread) (state.sleep thread block)
  | moveToFront
      (granted : state.pc thread = .granted block) :
      Moves disk state (.moveToFront thread)
        (state.enter thread block (state.head.erase block))
  | deviceRead
      (loading : state.pc thread = .loading block) :
      Moves disk state (.deviceRead thread) (state.read disk thread block)
  | insert
      (loaded : state.pc thread = .loaded block) :
      Moves disk state (.insert thread)
        (state.enter thread block state.head)
  | wake
      (idle : state.pc thread = .idle)
      (holds : (thread, block) ∈ state.holders)
      (sleepers : (state.blocks block).sleeplist = first :: rest) :
      Moves disk state (.release thread block)
        (state.wake thread block first rest)
  | unlock
      (idle : state.pc thread = .idle)
      (holds : (thread, block) ∈ state.holders)
      (positive : ¬ (state.blocks block).val + 1 ≤ 0) :
      Moves disk state (.release thread block) (state.unlock thread block)
  | sync
      (idle : state.pc thread = .idle)
      (holds : (thread, block) ∈ state.holders) :
      Moves disk state (.sync thread block) (state.pin block)
  | modify
      (idle : state.pc thread = .idle)
      (holds : (thread, block) ∈ state.holders) :
      Moves disk state (.modify thread block data) (state.write block data)

theorem step_moves
    {disk : Disk}
    {state target : State Thread}
    {label : Label Thread}
    (stepped : step disk state label = .ok target) :
    Moves disk state label target := by
  cases label with
  | search thread blockNo =>
      simp only [step] at stepped
      split at stepped
      · rename_i idle
        split at stepped
        · rename_i block found
          cases stepped
          exact Moves.hit idle found
        · rename_i missing
          cases stepped
          exact Moves.miss idle missing
      · simp at stepped
  | wait thread =>
      simp only [step] at stepped
      split at stepped
      · rename_i block found
        split_ifs at stepped with free
        · cases stepped
          exact Moves.take found free
        · cases stepped
          exact Moves.sleep found free
      · simp at stepped
  | moveToFront thread =>
      simp only [step] at stepped
      split at stepped
      · rename_i block granted
        cases stepped
        exact Moves.moveToFront granted
      · simp at stepped
  | deviceRead thread =>
      simp only [step] at stepped
      split at stepped
      · rename_i block loading
        cases stepped
        exact Moves.deviceRead loading
      · simp at stepped
  | insert thread =>
      simp only [step] at stepped
      split at stepped
      · rename_i block loaded
        cases stepped
        exact Moves.insert loaded
      · simp at stepped
  | release thread block =>
      simp only [step] at stepped
      split_ifs at stepped with holds negative
      · split at stepped
        · rename_i first rest sleepers
          cases stepped
          exact Moves.wake holds.1 holds.2 sleepers
        · simp at stepped
      · cases stepped
        exact Moves.unlock holds.1 holds.2 negative
  | sync thread block =>
      simp only [step] at stepped
      split_ifs at stepped with holds
      cases stepped
      exact Moves.sync holds.1 holds.2
  | modify thread block data =>
      simp only [step] at stepped
      split_ifs at stepped with holds
      cases stepped
      exact Moves.modify holds.1 holds.2

end FudanOS.Fs.ConcurrentCache
