import FudanOS.Library.Runs
import Mathlib.Algebra.BigOperators.Fin
import Mathlib.Algebra.Order.BigOperators.Group.Finset
import Mathlib.Data.List.Nodup

/-!
# The lifetime of an inode in memory

`inode_get`, `inode_share`, `inode_lock`, `inode_unlock` and `inode_put` of
`fs/inode.c`, called by any number of threads.  A step is a section under the
lock of the list, an atomic update of `rc`, an operation on the sleep lock of
an inode, or a section under it.

What `inode_clear` and `inode_sync` do to the blocks is left out here; the
number of links which `inode_sync` reads is chosen by the label.
-/

namespace FudanOS.Fs.InodeLifetime

open FudanOS.Library.Runs

/-! ## The functions -/

/-- The fields of `Inode` which matter for its lifetime. -/
structure Node where
  rc : Int
  inodeNo : Nat
  valid : Bool
  numLinks : Nat

/-- Where a thread is. -/
inductive Phase where
  /-- Not in a function of the inode layer. -/
  | run
  /-- `inode_get` before its section under the lock of the list -/
  | get (inodeNo : Nat)
  /-- `inode_share` before it increments `rc` -/
  | share (address : Nat)
  /-- `inode_lock` before its wait returns -/
  | lock (address : Nat)
  /-- `inode_put` before its wait returns -/
  | putLock (address : Nat)
  /-- `inode_put` before it decrements `rc` -/
  | putDec (address : Nat)
  /-- `inode_put` before it tests `rc` and `num_links` -/
  | putTest (address : Nat)
  /-- `inode_put` before `inode_clear` and `inode_sync` -/
  | putClear (address : Nat)
  /-- `inode_put` before its section under the lock of the list -/
  | putDetach (address : Nat)
  /-- `inode_put` before `post_sem`, with an inode off the list -/
  | putPost (address : Nat)
  /-- `inode_put` before `kfree` -/
  | putKfree (address : Nat)
  /-- `inode_put` before `post_sem`, with an inode which stays -/
  | putUnlock (address : Nat)
  deriving DecidableEq

structure Thread where
  phase : Phase
  /-- The references which the thread has not given to `inode_put`. -/
  refs : Nat → Nat

structure State (count : Nat) where
  nodes : Nat → Node
  /-- `inode->lock`: the thread which has taken it. -/
  locks : Nat → Option (Fin count)
  /-- The addresses of the inodes on the list `head`. -/
  head : List Nat
  /-- The inodes which `kalloc` has returned and `kfree` not got back. -/
  allocated : List Nat
  threads : Fin count → Thread

inductive Label (count : Nat) where
  | get (thread : Fin count) (inodeNo : Nat)
  /-- The section of `inode_get`, when `kalloc` would return `fresh`. -/
  | find (thread : Fin count) (fresh numLinks : Nat)
  | share (thread : Fin count) (address : Nat)
  | lock (thread : Fin count) (address : Nat)
  | unlock (thread : Fin count) (address : Nat)
  | put (thread : Fin count) (address : Nat)
  /-- The owner of the sleep lock changes `num_links`. -/
  | setLinks (thread : Fin count) (address numLinks : Nat)
  /-- The next step of a thread in a function. -/
  | advance (thread : Fin count)

section Steps

variable {count : Nat}

def State.setThread (state : State count) (thread : Fin count)
    (value : Thread) : State count :=
  { state with threads := Function.update state.threads thread value }

def State.goto (state : State count) (thread : Fin count)
    (phase : Phase) : State count :=
  state.setThread thread { state.threads thread with phase := phase }

/-- The thread returns from a function with one more reference. -/
def State.give (state : State count) (thread : Fin count)
    (address : Nat) : State count :=
  let refs := (state.threads thread).refs
  state.setThread thread
    { phase := .run
      refs := Function.update refs address (refs address + 1) }

/-- `inode->rc` is changed atomically. -/
def State.addRc (state : State count) (address : Nat) (change : Int) :
    State count :=
  let node := state.nodes address
  { state with
    nodes :=
      Function.update state.nodes address
        { node with rc := node.rc + change } }

def State.setLock (state : State count) (address : Nat)
    (owner : Option (Fin count)) : State count :=
  { state with locks := Function.update state.locks address owner }

/-- The section of `inode_get` under the lock of the list -/
def find (state : State count) (thread : Fin count)
    (inodeNo fresh numLinks : Nat) : State count :=
  match
    state.head.find? fun address =>
      (state.nodes address).inodeNo == inodeNo
  with
  | some address => (state.addRc address 1).give thread address
  | none =>
      { state with
        nodes :=
          Function.update state.nodes fresh
            { rc := 1
              inodeNo := inodeNo
              valid := true
              numLinks := numLinks }
        locks := Function.update state.locks fresh none
        head := fresh :: state.head
        allocated := fresh :: state.allocated }.give thread fresh

/-- The next step of a thread in a function, if it can go on. -/
def advance (state : State count) (thread : Fin count) :
    Option (State count) :=
  match (state.threads thread).phase with
  | .run => none
  | .get _ => none
  | .share address => some ((state.addRc address 1).give thread address)
  | .lock address =>
      if state.locks address = none then
        some ((state.setLock address (some thread)).goto thread .run)
      else
        none
  | .putLock address =>
      if state.locks address = none then
        some
          ((state.setLock address (some thread)).goto thread
            (.putDec address))
      else
        none
  | .putDec address =>
      some ((state.addRc address (-1)).goto thread (.putTest address))
  | .putTest address =>
      let node := state.nodes address
      if node.rc = 0 ∧ node.numLinks = 0 then
        some (state.goto thread (.putClear address))
      else
        some (state.goto thread (.putUnlock address))
  | .putClear address => some (state.goto thread (.putDetach address))
  | .putDetach address =>
      some
        ({ state with head := state.head.erase address }.goto thread
          (.putPost address))
  | .putPost address =>
      some ((state.setLock address none).goto thread (.putKfree address))
  | .putKfree address =>
      some
        ({ state with
          allocated := state.allocated.erase address }.goto thread .run)
  | .putUnlock address =>
      some ((state.setLock address none).goto thread .run)

/-- A call, which a thread makes when it is in no function. -/
def State.call (state : State count) (thread : Fin count)
    (target : State count) : Except Unit (State count) :=
  if (state.threads thread).phase = .run then .ok target else .error ()

def step (state : State count) (label : Label count) :
    Except Unit (State count) :=
  match label with
  | .get thread inodeNo =>
      state.call thread (state.goto thread (.get inodeNo))
  | .find thread fresh numLinks =>
      match (state.threads thread).phase with
      | .get inodeNo => .ok (find state thread inodeNo fresh numLinks)
      | _ => .error ()
  | .share thread address =>
      state.call thread (state.goto thread (.share address))
  | .lock thread address =>
      -- `ASSERT(inode->rc.count > 0)`
      if 0 < (state.nodes address).rc then
        state.call thread (state.goto thread (.lock address))
      else
        .error ()
  | .unlock thread address =>
      if 0 < (state.nodes address).rc then
        state.call thread (state.setLock address none)
      else
        .error ()
  | .put thread address =>
      let refs := (state.threads thread).refs
      state.call thread
        (state.setThread thread
          { phase := .putLock address
            refs := Function.update refs address (refs address - 1) })
  | .setLinks thread address numLinks =>
      state.call thread
        { state with
          nodes :=
            Function.update state.nodes address
              { state.nodes address with numLinks := numLinks } }
  | .advance thread =>
      match advance state thread with
      | some target => .ok target
      | none => .error ()

/-- No inode is in memory. -/
def initial : State count where
  nodes := fun _ => ⟨0, 0, false, 0⟩
  locks := fun _ => none
  head := []
  allocated := []
  threads := fun _ => ⟨.run, fun _ => 0⟩

end Steps

/-! ## What holders rely on -/

section Specification

variable {count : Nat}

/-- An inode which somebody holds is there, and there is one for a number. -/
structure Safe (state : State count) : Prop where
  held :
    ∀ thread address, 0 < (state.threads thread).refs address →
      address ∈ state.allocated ∧ address ∈ state.head ∧
        (state.nodes address).valid = true
  single :
    ∀ left ∈ state.allocated, ∀ right ∈ state.allocated,
      (state.nodes left).inodeNo = (state.nodes right).inodeNo →
        left = right

/-- A put has found that nobody needs the inode, and has not freed it yet. -/
def Phase.freeing : Phase → Option Nat
  | .putClear address => some address
  | .putDetach address => some address
  | .putPost address => some address
  | .putKfree address => some address
  | _ => none

/--
`kalloc` returns memory which is free; a thread shares, locks and puts what it
holds, and unlocks and changes what it has locked.
-/
def Allowed (state : State count) : Label count → Prop
  | .find _ fresh _ => fresh ∉ state.allocated
  | .share thread address => 0 < (state.threads thread).refs address
  | .lock thread address => 0 < (state.threads thread).refs address
  | .put thread address => 0 < (state.threads thread).refs address
  | .unlock thread address => state.locks address = some thread
  | .setLinks thread address _ => state.locks address = some thread
  | _ => True

/-- Nobody is freeing an inode with the number. -/
def Quiet (state : State count) (inodeNo : Nat) : Prop :=
  ∀ thread, ∀ address ∈ (state.threads thread).phase.freeing,
    (state.nodes address).inodeNo ≠ inodeNo

/-- `inode_get` does not look for an inode which a put is freeing. -/
def Careful (state : State count) : Label count → Prop
  | .find thread _ _ =>
      match (state.threads thread).phase with
      | .get inodeNo => Quiet state inodeNo
      | _ => True
  | _ => True

end Specification

/-! ## The invariant -/

section Invariant

variable {count : Nat}

/-- A put has a reference which `rc` still counts. -/
def Phase.pending (address : Nat) : Phase → Nat
  | .putLock other => if other = address then 1 else 0
  | .putDec other => if other = address then 1 else 0
  | _ => 0

/-- The put has taken the inode off the list. -/
def Phase.detached : Phase → Option Nat
  | .putPost address => some address
  | .putKfree address => some address
  | _ => none

/-- The put has the sleep lock. -/
def Phase.locked : Phase → Option Nat
  | .putDec address => some address
  | .putTest address => some address
  | .putClear address => some address
  | .putDetach address => some address
  | .putPost address => some address
  | .putUnlock address => some address
  | _ => none

/-- The references of a thread which `rc` counts. -/
def claims (address : Nat) (thread : Thread) : Nat :=
  thread.refs address + thread.phase.pending address

/-- The references of all threads. -/
def total (state : State count) (address : Nat) : Nat :=
  ∑ thread, claims address (state.threads thread)

/-- What a thread in a function can rely on. -/
def Phase.Ok (state : State count) (thread : Fin count) : Phase → Prop
  | .share address => 0 < (state.threads thread).refs address
  | .lock address => 0 < (state.threads thread).refs address
  | .putDec address => state.locks address = some thread
  | .putTest address =>
      state.locks address = some thread ∧ address ∈ state.head
  | .putUnlock address =>
      state.locks address = some thread ∧ address ∈ state.head
  | .putClear address =>
      state.locks address = some thread ∧ address ∈ state.head ∧
        total state address = 0
  | .putDetach address =>
      state.locks address = some thread ∧ address ∈ state.head ∧
        total state address = 0
  | .putPost address =>
      state.locks address = some thread ∧ address ∉ state.head ∧
        address ∈ state.allocated ∧ total state address = 0
  | .putKfree address =>
      address ∉ state.head ∧ address ∈ state.allocated ∧
        total state address = 0
  | _ => True

structure Invariant (state : State count) : Prop where
  counted :
    ∀ address ∈ state.head,
      (state.nodes address).rc = total state address
  listed : ∀ address, 0 < total state address → address ∈ state.head
  heap : ∀ address ∈ state.head, address ∈ state.allocated
  valid : ∀ address ∈ state.allocated, (state.nodes address).valid = true
  single :
    ∀ left ∈ state.allocated, ∀ right ∈ state.allocated,
      (state.nodes left).inodeNo = (state.nodes right).inodeNo →
        left = right
  nodupHead : state.head.Nodup
  nodupAllocated : state.allocated.Nodup
  off :
    ∀ address ∈ state.allocated, address ∉ state.head →
      ∃ thread, (state.threads thread).phase.detached = some address
  ok : ∀ thread, (state.threads thread).phase.Ok state thread
  unique :
    ∀ left right address,
      (state.threads left).phase.detached = some address →
        (state.threads right).phase.detached = some address →
          left = right

theorem total_setThread
    (state : State count)
    (thread : Fin count)
    (value : Thread)
    (address : Nat) :
    total (state.setThread thread value) address +
        claims address (state.threads thread) =
      total state address + claims address value :=
  sum_update_add (claims address) state.threads thread value

/-- A put which keeps or has lost its reference does not move the sum. -/
theorem total_goto
    (state : State count)
    (thread : Fin count)
    {phase : Phase}
    {address : Nat}
    (pending :
      phase.pending address =
        (state.threads thread).phase.pending address) :
    total (state.goto thread phase) address = total state address := by
  have moved :=
    total_setThread state thread
      { state.threads thread with phase := phase } address
  unfold claims at moved
  dsimp only at moved
  rw [pending] at moved
  exact Nat.add_right_cancel moved

/-- The sum has the references of every thread in it. -/
theorem claims_le_total
    (state : State count)
    (thread : Fin count)
    (address : Nat) :
    claims address (state.threads thread) ≤ total state address :=
  Finset.single_le_sum
    (f := fun other => claims address (state.threads other))
    (fun _ _ => Nat.zero_le _) (Finset.mem_univ thread)

namespace Invariant

variable
    {state target : State count}
    {thread : Fin count}
    {address : Nat}

/-- Who has a reference finds the inode on the list. -/
theorem listed_of_refs
    (invariant : Invariant state)
    (holds : 0 < (state.threads thread).refs address) :
    address ∈ state.head := by
  apply invariant.listed
  have included := claims_le_total state thread address
  have positive : 0 < claims address (state.threads thread) :=
    Nat.lt_of_lt_of_le holds (Nat.le_add_right _ _)
  exact Nat.lt_of_lt_of_le positive included

theorem safe
    (invariant : Invariant state) :
    Safe state := by
  refine ⟨?_, invariant.single⟩
  intro thread address holds
  have listed := invariant.listed_of_refs holds
  have allocated := invariant.heap address listed
  exact ⟨allocated, listed, invariant.valid address allocated⟩

/-- A put works on an inode which is not freed. -/
theorem allocated_of_locked
    (invariant : Invariant state)
    (locked : (state.threads thread).phase.locked = some address) :
    address ∈ state.allocated := by
  have ok := invariant.ok thread
  cases phase : (state.threads thread).phase with
  | putDec other =>
      rw [phase] at locked
      cases locked
      apply invariant.heap
      apply invariant.listed
      have included := claims_le_total state thread address
      have positive : 0 < claims address (state.threads thread) := by
        unfold claims
        rw [phase]
        simp [Phase.pending]
      exact Nat.lt_of_lt_of_le positive included
  | putTest other =>
      rw [phase] at locked ok
      cases locked
      exact invariant.heap _ ok.2
  | putUnlock other =>
      rw [phase] at locked ok
      cases locked
      exact invariant.heap _ ok.2
  | putClear other =>
      rw [phase] at locked ok
      cases locked
      exact invariant.heap _ ok.2.1
  | putDetach other =>
      rw [phase] at locked ok
      cases locked
      exact invariant.heap _ ok.2.1
  | putPost other =>
      rw [phase] at locked ok
      cases locked
      exact ok.2.2.1
  | run =>
      rw [phase] at locked
      cases locked
  | get _ =>
      rw [phase] at locked
      cases locked
  | share _ =>
      rw [phase] at locked
      cases locked
  | lock _ =>
      rw [phase] at locked
      cases locked
  | putLock _ =>
      rw [phase] at locked
      cases locked
  | putKfree _ =>
      rw [phase] at locked
      cases locked

end Invariant

/--
A thread can still rely on what it relied on, after a step of another thread
which leaves its lock, its inode and its references alone.
-/
theorem Phase.Ok.frame
    {state target : State count}
    {thread : Fin count}
    {phase : Phase}
    (ok : phase.Ok state thread)
    (refs :
      (target.threads thread).refs = (state.threads thread).refs)
    (locks :
      ∀ address, phase.locked = some address →
        state.locks address = some thread →
          target.locks address = some thread)
    (head :
      ∀ address, phase.locked = some address →
        state.locks address = some thread → address ∈ state.head →
          address ∈ target.head)
    (off :
      ∀ address, phase.detached = some address →
        address ∉ state.head → address ∈ state.allocated →
          address ∉ target.head ∧ address ∈ target.allocated)
    (unclaimed :
      ∀ address, phase.freeing = some address →
        total state address = 0 → total target address = 0) :
    phase.Ok target thread := by
  cases phase with
  | run => exact trivial
  | get _ => exact trivial
  | putLock _ => exact trivial
  | share address =>
      change 0 < (target.threads thread).refs address
      rw [refs]
      exact ok
  | lock address =>
      change 0 < (target.threads thread).refs address
      rw [refs]
      exact ok
  | putDec address => exact locks address rfl ok
  | putTest address =>
      exact ⟨locks address rfl ok.1, head address rfl ok.1 ok.2⟩
  | putUnlock address =>
      exact ⟨locks address rfl ok.1, head address rfl ok.1 ok.2⟩
  | putClear address =>
      exact ⟨locks address rfl ok.1, head address rfl ok.1 ok.2.1,
        unclaimed address rfl ok.2.2⟩
  | putDetach address =>
      exact ⟨locks address rfl ok.1, head address rfl ok.1 ok.2.1,
        unclaimed address rfl ok.2.2⟩
  | putPost address =>
      rcases off address rfl ok.2.1 ok.2.2.1 with ⟨gone, kept⟩
      exact ⟨locks address rfl ok.1, gone, kept,
        unclaimed address rfl ok.2.2.2⟩
  | putKfree address =>
      rcases off address rfl ok.1 ok.2.1 with ⟨gone, kept⟩
      exact ⟨gone, kept, unclaimed address rfl ok.2.2⟩

theorem invariant_initial : Invariant (initial : State count) := by
  have none : ∀ address, total (initial : State count) address = 0 := by
    intro address
    apply Finset.sum_eq_zero
    intro thread _
    rfl
  refine ⟨?_, ?_, ?_, ?_, ?_, List.nodup_nil, List.nodup_nil, ?_, ?_, ?_⟩
  · intro address member
    exact absurd member List.not_mem_nil
  · intro address positive
    rw [none address] at positive
    exact absurd positive (Nat.lt_irrefl 0)
  · intro address member
    exact absurd member List.not_mem_nil
  · intro address member
    exact absurd member List.not_mem_nil
  · intro left member
    exact absurd member List.not_mem_nil
  · intro address member
    exact absurd member List.not_mem_nil
  · intro thread
    exact trivial
  · intro left right address detached
    cases detached

end Invariant

/-! ## Steps which leave the list alone -/

namespace Invariant

variable
    {count : Nat}
    {state target : State count}
    {thread : Fin count}
    {address : Nat}

/--
A thread makes a step which neither adds an inode to the list nor takes one off
it.  The counts move with the references of the thread, and references to an
inode which another thread is freeing do not appear.
-/
theorem update
    (invariant : Invariant state)
    (value : Thread)
    (threads :
      target.threads = Function.update state.threads thread value)
    (head : target.head = state.head)
    (allocated : target.allocated = state.allocated)
    (numbers :
      ∀ address,
        (target.nodes address).inodeNo = (state.nodes address).inodeNo ∧
          (target.nodes address).valid = (state.nodes address).valid)
    (counts :
      ∀ address ∈ state.head,
        (target.nodes address).rc +
            claims address (state.threads thread) =
          (state.nodes address).rc + claims address value)
    (known :
      ∀ address, 0 < claims address value → address ∈ state.head)
    (unclaimed :
      ∀ other, other ≠ thread → ∀ address,
        (state.threads other).phase.freeing = some address →
          total state address = 0 → claims address value = 0)
    (detached :
      value.phase.detached = (state.threads thread).phase.detached)
    (locks :
      ∀ other address, other ≠ thread →
        state.locks address = some other →
          target.locks address = some other)
    (ok : value.phase.Ok target thread) :
    Invariant target := by
  have totals :
      ∀ address,
        total target address + claims address (state.threads thread) =
          total state address + claims address value := by
    intro address
    unfold total
    rw [threads]
    exact sum_update_add (claims address) state.threads thread value
  have sameDetached :
      ∀ other,
        (target.threads other).phase.detached =
          (state.threads other).phase.detached := by
    intro other
    rw [threads]
    by_cases same : other = thread
    · rw [same, Function.update_self, detached]
    · rw [Function.update_of_ne same]
  refine ⟨?_, ?_, ?_, ?_, ?_, ?_, ?_, ?_, ?_, ?_⟩
  · intro address member
    rw [head] at member
    have moved := totals address
    have count := invariant.counted address member
    have counts := counts address member
    omega
  · intro address positive
    rw [head]
    have moved := totals address
    by_cases old : 0 < total state address
    · exact invariant.listed address old
    · apply known
      omega
  · rw [head, allocated]
    exact invariant.heap
  · intro address member
    rw [allocated] at member
    rw [(numbers address).2]
    exact invariant.valid address member
  · intro left leftMember right rightMember same
    rw [allocated] at leftMember rightMember
    rw [(numbers left).1, (numbers right).1] at same
    exact invariant.single left leftMember right rightMember same
  · rw [head]
    exact invariant.nodupHead
  · rw [allocated]
    exact invariant.nodupAllocated
  · intro address member absent
    rw [allocated] at member
    rw [head] at absent
    rcases invariant.off address member absent with ⟨other, isOff⟩
    exact ⟨other, (sameDetached other).trans isOff⟩
  · intro other
    by_cases same : other = thread
    · subst same
      rw [threads, Function.update_self]
      exact ok
    · have here : target.threads other = state.threads other := by
        rw [threads, Function.update_of_ne same]
      rw [here]
      refine (invariant.ok other).frame ?_ ?_ ?_ ?_ ?_
      · rw [here]
      · intro address _ owned
        exact locks other address same owned
      · intro address _ _ member
        rw [head]
        exact member
      · intro address _ gone kept
        rw [head, allocated]
        exact ⟨gone, kept⟩
      · intro address freeing none
        have moved := totals address
        have nothing := unclaimed other same address freeing none
        omega
  · intro left right address leftOff rightOff
    rw [sameDetached] at leftOff rightOff
    exact invariant.unique left right address leftOff rightOff

/-- A thread makes a step which does not concern the counts. -/
theorem goto
    (invariant : Invariant state)
    {phase : Phase}
    (threads :
      target.threads =
        Function.update state.threads thread
          { state.threads thread with phase := phase })
    (nodes :
      ∀ address,
        (target.nodes address).inodeNo = (state.nodes address).inodeNo ∧
          (target.nodes address).valid = (state.nodes address).valid ∧
          (target.nodes address).rc = (state.nodes address).rc)
    (head : target.head = state.head)
    (allocated : target.allocated = state.allocated)
    (pending :
      ∀ address,
        phase.pending address =
          (state.threads thread).phase.pending address)
    (detached :
      phase.detached = (state.threads thread).phase.detached)
    (locks :
      ∀ other address, other ≠ thread →
        state.locks address = some other →
          target.locks address = some other)
    (ok : phase.Ok target thread) :
    Invariant target := by
  have same :
      ∀ address,
        claims address { state.threads thread with phase := phase } =
          claims address (state.threads thread) := by
    intro address
    unfold claims
    rw [pending]
  refine invariant.update _ threads head allocated
    (fun address => ⟨(nodes address).1, (nodes address).2.1⟩) ?_ ?_ ?_
    detached locks ok
  · intro address _
    rw [same, (nodes address).2.2]
  · intro address positive
    rw [same] at positive
    apply invariant.listed
    exact Nat.lt_of_lt_of_le positive
      (claims_le_total state thread address)
  · intro other _ address _ none
    rw [same]
    exact Nat.le_zero.mp
      (none ▸ claims_le_total state thread address)

/-- A thread gets a reference to an inode which nobody is freeing. -/
theorem give
    (invariant : Invariant state)
    (listed : address ∈ state.head)
    (idle : ∀ other, (state.threads other).phase.freeing ≠ some address)
    (quiet : ∀ other, (state.threads thread).phase.pending other = 0)
    (stays : (state.threads thread).phase.detached = none) :
    Invariant ((state.addRc address 1).give thread address) := by
  have same :
      ∀ other,
        claims other
            { phase := .run
              refs :=
                Function.update (state.threads thread).refs address
                  ((state.threads thread).refs address + 1) } =
          claims other (state.threads thread) +
            if other = address then 1 else 0 := by
    intro other
    unfold claims
    dsimp only
    rw [quiet other]
    by_cases here : other = address
    · rw [here, Function.update_self, if_pos rfl]
      rfl
    · rw [Function.update_of_ne here, if_neg here]
      rfl
  refine invariant.update
    { phase := .run
      refs :=
        Function.update (state.threads thread).refs address
          ((state.threads thread).refs address + 1) }
    rfl rfl rfl ?_ ?_ ?_ ?_ stays.symm ?_ trivial
  · intro other
    unfold State.give State.setThread State.addRc
    dsimp only
    by_cases here : other = address
    · rw [here, Function.update_self]
      exact ⟨rfl, rfl⟩
    · rw [Function.update_of_ne here]
      exact ⟨rfl, rfl⟩
  · intro other _
    rw [same]
    unfold State.give State.setThread State.addRc
    dsimp only
    by_cases here : other = address
    · rw [here, Function.update_self, if_pos rfl]
      dsimp only
      omega
    · rw [Function.update_of_ne here, if_neg here]
      omega
  · intro other positive
    rw [same] at positive
    by_cases here : other = address
    · rw [here]
      exact listed
    · rw [if_neg here] at positive
      apply invariant.listed
      exact Nat.lt_of_lt_of_le positive
        (claims_le_total state thread other)
  · intro another _ other freeing none
    rw [same]
    have different : other ≠ address := by
      rintro rfl
      exact idle another freeing
    rw [if_neg different, Nat.add_zero]
    exact Nat.le_zero.mp (none ▸ claims_le_total state thread other)
  · intro _ _ _ owned
    exact owned

/-- A thread gives one of its references to `inode_put`. -/
theorem put
    (invariant : Invariant state)
    (idle : (state.threads thread).phase = .run)
    (holds : 0 < (state.threads thread).refs address) :
    Invariant
      (state.setThread thread
        { phase := .putLock address
          refs :=
            Function.update (state.threads thread).refs address
              ((state.threads thread).refs address - 1) }) := by
  have same :
      ∀ other,
        claims other
            { phase := .putLock address
              refs :=
                Function.update (state.threads thread).refs address
                  ((state.threads thread).refs address - 1) } =
          claims other (state.threads thread) := by
    intro other
    unfold claims
    dsimp only
    rw [idle]
    dsimp only [Phase.pending]
    by_cases here : other = address
    · rw [here, Function.update_self, if_pos rfl]
      omega
    · rw [Function.update_of_ne here, if_neg fun h => here h.symm]
  refine invariant.update
    { phase := .putLock address
      refs :=
        Function.update (state.threads thread).refs address
          ((state.threads thread).refs address - 1) }
    rfl rfl rfl (fun _ => ⟨rfl, rfl⟩) ?_ ?_ ?_ ?_ ?_ trivial
  · intro other _
    rw [same]
    rfl
  · intro other positive
    rw [same] at positive
    apply invariant.listed
    exact Nat.lt_of_lt_of_le positive
      (claims_le_total state thread other)
  · intro _ _ other _ none
    rw [same]
    exact Nat.le_zero.mp (none ▸ claims_le_total state thread other)
  · rw [idle]
    rfl
  · intro _ _ _ owned
    exact owned

/-- `inode_put` gives the reference back. -/
theorem putDec
    (invariant : Invariant state)
    (here : (state.threads thread).phase = .putDec address) :
    Invariant
      ((state.addRc address (-1)).goto thread (.putTest address)) := by
  have same :
      ∀ other,
        claims other
              { state.threads thread with phase := .putTest address } +
            (if other = address then 1 else 0) =
          claims other (state.threads thread) := by
    intro other
    unfold claims
    dsimp only
    rw [here]
    dsimp only [Phase.pending]
    by_cases equal : other = address
    · rw [equal, if_pos rfl]
    · rw [if_neg equal, if_neg fun h => equal h.symm]
  have owned : state.locks address = some thread := by
    have ok := invariant.ok thread
    rw [here] at ok
    exact ok
  have listed : address ∈ state.head := by
    apply invariant.listed
    have positive := same address
    rw [if_pos rfl] at positive
    have included := claims_le_total state thread address
    omega
  refine invariant.update
    { state.threads thread with phase := .putTest address }
    rfl rfl rfl ?_ ?_ ?_ ?_ ?_ ?_ ⟨owned, listed⟩
  · intro other
    unfold State.goto State.setThread State.addRc
    dsimp only
    by_cases equal : other = address
    · rw [equal, Function.update_self]
      exact ⟨rfl, rfl⟩
    · rw [Function.update_of_ne equal]
      exact ⟨rfl, rfl⟩
  · intro other _
    have moved := same other
    unfold State.goto State.setThread State.addRc
    dsimp only at moved ⊢
    by_cases equal : other = address
    · rw [if_pos equal] at moved
      rw [equal, Function.update_self]
      rw [equal] at moved
      dsimp only
      omega
    · rw [if_neg equal] at moved
      rw [Function.update_of_ne equal]
      omega
  · intro other positive
    have moved := same other
    apply invariant.listed
    have included := claims_le_total state thread other
    change 0 < claims other _ at positive
    omega
  · intro _ _ other _ none
    have moved := same other
    have included := claims_le_total state thread other
    change claims other { state.threads thread with phase := _ } = 0
    omega
  · rw [here]
    rfl
  · intro _ _ _ owned
    exact owned

/-- `inode_put` has the lock of the inode. -/
theorem locked
    (invariant : Invariant state)
    {phase : Phase}
    (free : state.locks address = none)
    (pending :
      ∀ other,
        phase.pending other =
          (state.threads thread).phase.pending other)
    (detached :
      phase.detached = (state.threads thread).phase.detached)
    (ok :
      phase.Ok ((state.setLock address (some thread)).goto thread phase)
        thread) :
    Invariant
      ((state.setLock address (some thread)).goto thread phase) := by
  refine invariant.goto rfl (fun _ => ⟨rfl, rfl, rfl⟩) rfl rfl pending
    detached ?_ ok
  intro other another _ owned
  unfold State.goto State.setThread State.setLock
  dsimp only
  by_cases here : another = address
  · rw [here, free] at owned
    cases owned
  · rw [Function.update_of_ne here]
    exact owned

/-- The owner gives the lock of the inode back. -/
theorem unlocked
    (invariant : Invariant state)
    {phase : Phase}
    (owned : state.locks address = some thread)
    (pending :
      ∀ other,
        phase.pending other =
          (state.threads thread).phase.pending other)
    (detached :
      phase.detached = (state.threads thread).phase.detached)
    (ok :
      phase.Ok ((state.setLock address none).goto thread phase) thread) :
    Invariant ((state.setLock address none).goto thread phase) := by
  refine invariant.goto rfl (fun _ => ⟨rfl, rfl, rfl⟩) rfl rfl pending
    detached ?_ ok
  intro other another different taken
  unfold State.goto State.setThread State.setLock
  dsimp only
  by_cases here : another = address
  · rw [here, owned] at taken
    cases taken
    exact absurd rfl different
  · rw [Function.update_of_ne here]
    exact taken

end Invariant

/-! ## Steps which change the list or the heap -/

theorem detached_update
    {count : Nat}
    {state target : State count}
    {thread : Fin count}
    {value : Thread}
    (threads :
      target.threads = Function.update state.threads thread value)
    (other : Fin count) :
    (target.threads other).phase.detached =
      if other = thread then value.phase.detached
      else (state.threads other).phase.detached := by
  rw [threads]
  by_cases same : other = thread
  · rw [same, Function.update_self, if_pos rfl]
  · rw [Function.update_of_ne same, if_neg same]

namespace Invariant

variable
    {count : Nat}
    {state target : State count}
    {thread : Fin count}
    {address : Nat}

/-- Nobody has a reference to an inode which is being freed. -/
theorem of_freeing
    (invariant : Invariant state)
    (freeing : (state.threads thread).phase.freeing = some address) :
    total state address = 0 ∧ address ∈ state.allocated := by
  have ok := invariant.ok thread
  cases phase : (state.threads thread).phase with
  | putClear other =>
      rw [phase] at freeing ok
      cases freeing
      exact ⟨ok.2.2, invariant.heap _ ok.2.1⟩
  | putDetach other =>
      rw [phase] at freeing ok
      cases freeing
      exact ⟨ok.2.2, invariant.heap _ ok.2.1⟩
  | putPost other =>
      rw [phase] at freeing ok
      cases freeing
      exact ⟨ok.2.2.2, ok.2.2.1⟩
  | putKfree other =>
      rw [phase] at freeing ok
      cases freeing
      exact ⟨ok.2.2, ok.2.1⟩
  | _ =>
      rw [phase] at freeing
      cases freeing

theorem of_detached
    (invariant : Invariant state)
    (detached : (state.threads thread).phase.detached = some address) :
    address ∉ state.head ∧ address ∈ state.allocated := by
  have ok := invariant.ok thread
  cases phase : (state.threads thread).phase with
  | putPost _ =>
      rw [phase] at detached ok
      cases detached
      exact ⟨ok.2.1, ok.2.2.1⟩
  | putKfree _ =>
      rw [phase] at detached ok
      cases detached
      exact ⟨ok.1, ok.2.1⟩
  | _ =>
      rw [phase] at detached
      cases detached

/-- The reference which a thread has keeps others from freeing the inode. -/
theorem idle_of_refs
    (invariant : Invariant state)
    (holds : 0 < (state.threads thread).refs address)
    (other : Fin count) :
    (state.threads other).phase.freeing ≠ some address := by
  intro freeing
  have none := (invariant.of_freeing freeing).1
  have included := claims_le_total state thread address
  unfold claims at included
  omega

/-- `inode_put` takes the inode off the list. -/
theorem putDetach
    (invariant : Invariant state)
    (here : (state.threads thread).phase = .putDetach address) :
    Invariant
      ({ state with head := state.head.erase address }.goto thread
        (.putPost address)) := by
  have ok := invariant.ok thread
  rw [here] at ok
  rcases ok with ⟨owned, listed, unclaimed⟩
  have same :
      ∀ other,
        total
            ({ state with head := state.head.erase address }.goto thread
              (.putPost address))
            other =
          total state other := by
    intro other
    apply total_goto
    dsimp only
    rw [here]
    rfl
  have threads :
      ({ state with head := state.head.erase address }.goto thread
          (.putPost address)).threads =
        Function.update state.threads thread
          { state.threads thread with phase := .putPost address } :=
    rfl
  have detached := detached_update threads
  refine ⟨?_, ?_, ?_, invariant.valid, invariant.single, ?_,
    invariant.nodupAllocated, ?_, ?_, ?_⟩
  · intro other member
    rw [same]
    exact invariant.counted other (List.mem_of_mem_erase member)
  · intro other positive
    rw [same] at positive
    have different : other ≠ address := by
      rintro rfl
      omega
    exact (List.mem_erase_of_ne different).mpr
      (invariant.listed other positive)
  · intro other member
    exact invariant.heap other (List.mem_of_mem_erase member)
  · exact invariant.nodupHead.erase address
  · intro other member absent
    by_cases equal : other = address
    · refine ⟨thread, ?_⟩
      rw [detached, if_pos rfl, equal]
      rfl
    · have before : other ∉ state.head := fun listed =>
        absent ((List.mem_erase_of_ne equal).mpr listed)
      rcases invariant.off other member before with ⟨freer, isOff⟩
      refine ⟨freer, ?_⟩
      rw [detached, if_neg, isOff]
      rintro rfl
      rw [here] at isOff
      cases isOff
  · intro other
    by_cases equal : other = thread
    · subst equal
      unfold State.goto State.setThread
      dsimp only
      rw [Function.update_self]
      refine ⟨owned, invariant.nodupHead.not_mem_erase,
        invariant.heap address listed, ?_⟩
      rw [← unclaimed]
      exact same address
    · have stays :
          ({ state with head := state.head.erase address }.goto thread
            (.putPost address)).threads other = state.threads other :=
        Function.update_of_ne equal _ _
      rw [stays]
      refine (invariant.ok other).frame ?_ ?_ ?_ ?_ ?_
      · rw [stays]
      · intro _ _ taken
        exact taken
      · intro another _ taken member
        have different : another ≠ address := by
          rintro rfl
          rw [owned] at taken
          cases taken
          exact equal rfl
        exact (List.mem_erase_of_ne different).mpr member
      · intro another _ gone kept
        exact ⟨fun member => gone (List.mem_of_mem_erase member), kept⟩
      · intro another _ none
        rw [same]
        exact none
  · intro left right another leftOff rightOff
    have alone :
        ∀ other, (state.threads other).phase.detached ≠ some address :=
      fun _ isOff => (invariant.of_detached isOff).1 listed
    rw [detached] at leftOff rightOff
    by_cases isLeft : left = thread
    · rw [if_pos isLeft] at leftOff
      cases leftOff
      by_cases isRight : right = thread
      · rw [isLeft, isRight]
      · rw [if_neg isRight] at rightOff
        exact absurd rightOff (alone right)
    · rw [if_neg isLeft] at leftOff
      by_cases isRight : right = thread
      · rw [if_pos isRight] at rightOff
        cases rightOff
        exact absurd leftOff (alone left)
      · rw [if_neg isRight] at rightOff
        exact invariant.unique left right another leftOff rightOff

/-- `inode_put` frees the inode. -/
theorem putKfree
    (invariant : Invariant state)
    (here : (state.threads thread).phase = .putKfree address) :
    Invariant
      ({ state with
          allocated := state.allocated.erase address }.goto thread
        .run) := by
  have ok := invariant.ok thread
  rw [here] at ok
  rcases ok with ⟨gone, _, _⟩
  have same :
      ∀ other,
        total
            ({ state with
                allocated := state.allocated.erase address }.goto thread
              .run)
            other =
          total state other := by
    intro other
    apply total_goto
    dsimp only
    rw [here]
    rfl
  have threads :
      ({ state with
          allocated := state.allocated.erase address }.goto thread
          .run).threads =
        Function.update state.threads thread
          { state.threads thread with phase := .run } :=
    rfl
  have detached := detached_update threads
  refine ⟨?_, ?_, ?_, ?_, ?_, invariant.nodupHead, ?_, ?_, ?_, ?_⟩
  · intro other member
    rw [same]
    exact invariant.counted other member
  · intro other positive
    rw [same] at positive
    exact invariant.listed other positive
  · intro other member
    have different : other ≠ address := by
      rintro rfl
      exact gone member
    exact (List.mem_erase_of_ne different).mpr
      (invariant.heap other member)
  · intro other member
    exact invariant.valid other (List.mem_of_mem_erase member)
  · intro left leftMember right rightMember
    exact invariant.single left (List.mem_of_mem_erase leftMember) right
      (List.mem_of_mem_erase rightMember)
  · exact invariant.nodupAllocated.erase address
  · intro other member absent
    rcases invariant.off other (List.mem_of_mem_erase member) absent with
      ⟨freer, isOff⟩
    refine ⟨freer, ?_⟩
    rw [detached, if_neg, isOff]
    rintro rfl
    rw [here] at isOff
    cases isOff
    exact invariant.nodupAllocated.not_mem_erase member
  · intro other
    by_cases equal : other = thread
    · subst equal
      rw [threads, Function.update_self]
      exact trivial
    · have stays :
          ({ state with
              allocated := state.allocated.erase address }.goto thread
            .run).threads other = state.threads other :=
        Function.update_of_ne equal _ _
      rw [stays]
      refine (invariant.ok other).frame ?_ ?_ ?_ ?_ ?_
      · rw [stays]
      · intro _ _ taken
        exact taken
      · intro _ _ _ member
        exact member
      · intro another isOff gone kept
        have different : another ≠ address := by
          rintro rfl
          have mine : (state.threads thread).phase.detached =
              some another := by
            rw [here]
            rfl
          exact equal (invariant.unique other thread another isOff mine)
        exact ⟨gone, (List.mem_erase_of_ne different).mpr kept⟩
      · intro another _ none
        rw [same]
        exact none
  · intro left right another leftOff rightOff
    rw [detached] at leftOff rightOff
    by_cases isLeft : left = thread
    · rw [if_pos isLeft] at leftOff
      cases leftOff
    · by_cases isRight : right = thread
      · rw [if_pos isRight] at rightOff
        cases rightOff
      · rw [if_neg isLeft] at leftOff
        rw [if_neg isRight] at rightOff
        exact invariant.unique left right another leftOff rightOff

/-- `inode_get` puts a new inode on the list. -/
theorem fresh
    (invariant : Invariant state)
    {inodeNo numLinks : Nat}
    (here : (state.threads thread).phase = .get inodeNo)
    (free : address ∉ state.allocated)
    (absent :
      ∀ other ∈ state.head, (state.nodes other).inodeNo ≠ inodeNo)
    (quiet : Quiet state inodeNo)
    (nodes :
      target.nodes =
        Function.update state.nodes address
          { rc := 1
            inodeNo := inodeNo
            valid := true
            numLinks := numLinks })
    (locks : target.locks = Function.update state.locks address none)
    (head : target.head = address :: state.head)
    (allocated : target.allocated = address :: state.allocated)
    (threads :
      target.threads =
        Function.update state.threads thread
          { phase := .run
            refs :=
              Function.update (state.threads thread).refs address
                ((state.threads thread).refs address + 1) }) :
    Invariant target := by
  have unclaimed : total state address = 0 := by
    by_contra positive
    exact free (invariant.heap address
      (invariant.listed address (Nat.pos_of_ne_zero positive)))
  have totals :
      ∀ other,
        total target other =
          total state other + if other = address then 1 else 0 := by
    intro other
    have moved :=
      sum_update_add (claims other) state.threads thread
        { phase := .run
          refs :=
            Function.update (state.threads thread).refs address
              ((state.threads thread).refs address + 1) }
    rw [← threads] at moved
    unfold claims at moved
    rw [here] at moved
    unfold total claims
    dsimp only [Phase.pending] at moved ⊢
    by_cases equal : other = address
    · rw [equal, Function.update_self] at moved
      rw [equal, if_pos rfl]
      omega
    · rw [Function.update_of_ne equal] at moved
      rw [if_neg equal]
      omega
  have known :
      ∀ other ∈ state.allocated, target.nodes other = state.nodes other := by
    intro other member
    rw [nodes, Function.update_of_ne]
    rintro rfl
    exact free member
  have new : (target.nodes address).inodeNo = inodeNo := by
    rw [nodes, Function.update_self]
  have different :
      ∀ other ∈ state.allocated,
        (state.nodes other).inodeNo ≠ inodeNo := by
    intro other member
    by_cases listed : other ∈ state.head
    · exact absent other listed
    · rcases invariant.off other member listed with ⟨freer, isOff⟩
      apply quiet freer other
      cases phase : (state.threads freer).phase with
      | putPost _ =>
          rw [phase] at isOff
          exact isOff
      | putKfree _ =>
          rw [phase] at isOff
          exact isOff
      | _ =>
          rw [phase] at isOff
          cases isOff
  have detached :
      ∀ other,
        (target.threads other).phase.detached =
          (state.threads other).phase.detached := by
    intro other
    rw [detached_update threads]
    by_cases equal : other = thread
    · rw [if_pos equal, equal, here]
      rfl
    · rw [if_neg equal]
  refine ⟨?_, ?_, ?_, ?_, ?_, ?_, ?_, ?_, ?_, ?_⟩
  · intro other member
    rw [totals]
    rw [head, List.mem_cons] at member
    rcases member with rfl | member
    · rw [nodes, Function.update_self, if_pos rfl, unclaimed]
      rfl
    · have isAllocated := invariant.heap other member
      have notNew : other ≠ address := by
        rintro rfl
        exact free isAllocated
      rw [known other isAllocated, if_neg notNew]
      exact invariant.counted other member
  · intro other positive
    rw [totals] at positive
    rw [head, List.mem_cons]
    by_cases equal : other = address
    · exact Or.inl equal
    · rw [if_neg equal] at positive
      exact Or.inr (invariant.listed other positive)
  · intro other member
    rw [head, List.mem_cons] at member
    rw [allocated, List.mem_cons]
    exact member.imp id (invariant.heap other)
  · intro other member
    rw [allocated, List.mem_cons] at member
    rcases member with rfl | member
    · rw [nodes, Function.update_self]
    · rw [known other member]
      exact invariant.valid other member
  · intro left leftMember right rightMember same
    rw [allocated, List.mem_cons] at leftMember rightMember
    rcases leftMember with rfl | leftMember
    · rcases rightMember with rfl | rightMember
      · rfl
      · rw [new, known right rightMember] at same
        exact absurd same.symm (different right rightMember)
    · rw [known left leftMember] at same
      rcases rightMember with rfl | rightMember
      · rw [new] at same
        exact absurd same (different left leftMember)
      · rw [known right rightMember] at same
        exact invariant.single left leftMember right rightMember same
  · rw [head]
    exact invariant.nodupHead.cons fun member =>
      free (invariant.heap address member)
  · rw [allocated]
    exact invariant.nodupAllocated.cons free
  · intro other member absent
    rw [allocated, List.mem_cons] at member
    rw [head, List.mem_cons, not_or] at absent
    have old := member.resolve_left absent.1
    rcases invariant.off other old absent.2 with ⟨freer, isOff⟩
    exact ⟨freer, (detached freer).trans isOff⟩
  · intro other
    by_cases equal : other = thread
    · rw [equal, threads, Function.update_self]
      exact trivial
    · have stays : target.threads other = state.threads other := by
        rw [threads, Function.update_of_ne equal]
      rw [stays]
      have notNew : ∀ another ∈ state.allocated, another ≠ address := by
        rintro another member rfl
        exact free member
      refine (invariant.ok other).frame ?_ ?_ ?_ ?_ ?_
      · rw [stays]
      · intro another isLocked taken
        have old := invariant.allocated_of_locked isLocked
        rw [locks, Function.update_of_ne (notNew another old)]
        exact taken
      · intro _ _ _ member
        rw [head]
        exact List.mem_cons_of_mem _ member
      · intro another _ gone kept
        rw [head, allocated, List.mem_cons, not_or]
        exact ⟨⟨notNew another kept, gone⟩, List.mem_cons_of_mem _ kept⟩
      · intro another freeing none
        have old := (invariant.of_freeing freeing).2
        rw [totals, none, if_neg (notNew another old)]
  · intro left right another leftOff rightOff
    rw [detached] at leftOff rightOff
    exact invariant.unique left right another leftOff rightOff

/-! ## Whole runs -/

/-- A thread at rest makes a step without references. -/
theorem rest
    (invariant : Invariant state)
    (idle : (state.threads thread).phase = .run)
    (nodes :
      ∀ address,
        (target.nodes address).inodeNo = (state.nodes address).inodeNo ∧
          (target.nodes address).valid = (state.nodes address).valid ∧
          (target.nodes address).rc = (state.nodes address).rc)
    (threads : target.threads = state.threads)
    (head : target.head = state.head)
    (allocated : target.allocated = state.allocated)
    (locks :
      ∀ other address, other ≠ thread →
        state.locks address = some other →
          target.locks address = some other) :
    Invariant target := by
  have same :
      target.threads =
        Function.update state.threads thread
          { state.threads thread with phase := .run } := by
    have unchanged :
        { state.threads thread with phase := Phase.run } =
          state.threads thread := by
      rw [← idle]
    rw [threads, unchanged, Function.update_eq_self]
  refine invariant.goto same nodes head allocated ?_ ?_ locks trivial
  · intro _
    rw [idle]
  · rw [idle]

/-- The section of `inode_get` keeps the invariant. -/
theorem find
    (invariant : Invariant state)
    {inodeNo fresh numLinks : Nat}
    (here : (state.threads thread).phase = .get inodeNo)
    (free : fresh ∉ state.allocated)
    (quiet : Quiet state inodeNo) :
    Invariant
      (InodeLifetime.find state thread inodeNo fresh numLinks) := by
  unfold InodeLifetime.find
  cases found :
      state.head.find? fun address =>
        (state.nodes address).inodeNo == inodeNo with
  | some address =>
      have listed := List.mem_of_find?_eq_some found
      have isNumber := List.find?_some found
      refine invariant.give listed ?_ ?_ ?_
      · intro other freeing
        exact quiet other address freeing (eq_of_beq isNumber)
      · intro _
        rw [here]
        rfl
      · rw [here]
        rfl
  | none =>
      refine invariant.fresh here free ?_ quiet rfl rfl rfl rfl rfl
      intro other member equal
      have absent := List.find?_eq_none.mp found other member
      exact absent (beq_iff_eq.mpr equal)

/-- The next step of a thread in a function keeps the invariant. -/
theorem advance
    (invariant : Invariant state)
    (taken : InodeLifetime.advance state thread = some target) :
    Invariant target := by
  have ok := invariant.ok thread
  unfold InodeLifetime.advance at taken
  cases here : (state.threads thread).phase with
  | run =>
      rw [here] at taken
      cases taken
  | get _ =>
      rw [here] at taken
      cases taken
  | share address =>
      rw [here] at taken ok
      cases taken
      refine invariant.give (invariant.listed_of_refs ok)
        (invariant.idle_of_refs ok) ?_ ?_
      · intro _
        rw [here]
        rfl
      · rw [here]
        rfl
  | lock address =>
      rw [here] at taken
      dsimp only at taken
      split_ifs at taken with free
      cases taken
      refine invariant.locked free ?_ ?_ trivial
      · intro _
        rw [here]
        rfl
      · rw [here]
        rfl
  | putLock address =>
      rw [here] at taken
      dsimp only at taken
      split_ifs at taken with free
      cases taken
      refine invariant.locked free ?_ ?_ ?_
      · intro _
        rw [here]
        rfl
      · rw [here]
        rfl
      · exact Function.update_self _ _ _
  | putDec address =>
      rw [here] at taken
      cases taken
      exact invariant.putDec here
  | putTest address =>
      rw [here] at taken ok
      dsimp only at taken
      split_ifs at taken with unused
      · cases taken
        refine invariant.goto rfl (fun _ => ⟨rfl, rfl, rfl⟩) rfl rfl ?_ ?_
          (fun _ _ _ owned => owned) ?_
        · intro _
          rw [here]
          rfl
        · rw [here]
          rfl
        · refine ⟨ok.1, ok.2, ?_⟩
          have counted := invariant.counted address ok.2
          rw [unused.1] at counted
          rw [total_goto state thread (by rw [here]; rfl)]
          exact Int.natCast_eq_zero.mp counted.symm
      · cases taken
        refine invariant.goto rfl (fun _ => ⟨rfl, rfl, rfl⟩) rfl rfl ?_ ?_
          (fun _ _ _ owned => owned) ok
        · intro _
          rw [here]
          rfl
        · rw [here]
          rfl
  | putClear address =>
      rw [here] at taken ok
      cases taken
      refine invariant.goto rfl (fun _ => ⟨rfl, rfl, rfl⟩) rfl rfl ?_ ?_
        (fun _ _ _ owned => owned) ?_
      · intro _
        rw [here]
        rfl
      · rw [here]
        rfl
      · refine ⟨ok.1, ok.2.1, ?_⟩
        rw [total_goto state thread (by rw [here]; rfl)]
        exact ok.2.2
  | putDetach address =>
      rw [here] at taken
      cases taken
      exact invariant.putDetach here
  | putPost address =>
      rw [here] at taken ok
      cases taken
      refine invariant.unlocked ok.1 ?_ ?_ ?_
      · intro _
        rw [here]
        rfl
      · rw [here]
        rfl
      · refine ⟨ok.2.1, ok.2.2.1, ?_⟩
        have phase :
            ((state.setLock address none).threads thread).phase =
              .putPost address :=
          here
        rw [total_goto (state.setLock address none) thread
          (by rw [phase]; rfl)]
        exact ok.2.2.2
  | putKfree address =>
      rw [here] at taken
      cases taken
      exact invariant.putKfree here
  | putUnlock address =>
      rw [here] at taken ok
      cases taken
      refine invariant.unlocked ok.1 ?_ ?_ trivial
      · intro _
        rw [here]
        rfl
      · rw [here]
        rfl

/-- A call is made by a thread at rest. -/
theorem of_call
    {source : State count}
    (called : source.call thread state = .ok target) :
    (source.threads thread).phase = .run ∧ target = state := by
  unfold State.call at called
  split_ifs at called with idle
  exact ⟨idle, (Except.ok.inj called).symm⟩

theorem of_step
    (invariant : Invariant state)
    {label : Label count}
    (allowed : Allowed state label)
    (careful : Careful state label)
    (taken : step state label = .ok target) :
    Invariant target := by
  unfold step at taken
  cases label with
  | get thread inodeNo =>
      rcases of_call taken with ⟨idle, rfl⟩
      refine invariant.goto rfl (fun _ => ⟨rfl, rfl, rfl⟩) rfl rfl ?_ ?_
        (fun _ _ _ owned => owned) trivial
      · intro _
        rw [idle]
        rfl
      · rw [idle]
        rfl
  | find thread fresh numLinks =>
      dsimp only at taken
      cases here : (state.threads thread).phase with
      | get inodeNo =>
          rw [here] at taken
          cases taken
          unfold Careful at careful
          dsimp only at careful
          rw [here] at careful
          exact invariant.find here allowed careful
      | _ =>
          rw [here] at taken
          cases taken
  | share thread address =>
      rcases of_call taken with ⟨idle, rfl⟩
      refine invariant.goto rfl (fun _ => ⟨rfl, rfl, rfl⟩) rfl rfl ?_ ?_
        (fun _ _ _ owned => owned) ?_
      · intro _
        rw [idle]
        rfl
      · rw [idle]
        rfl
      · unfold Phase.Ok State.goto State.setThread
        dsimp only
        rw [Function.update_self]
        exact allowed
  | lock thread address =>
      dsimp only at taken
      split_ifs at taken
      rcases of_call taken with ⟨idle, rfl⟩
      refine invariant.goto rfl (fun _ => ⟨rfl, rfl, rfl⟩) rfl rfl ?_ ?_
        (fun _ _ _ owned => owned) ?_
      · intro _
        rw [idle]
        rfl
      · rw [idle]
        rfl
      · unfold Phase.Ok State.goto State.setThread
        dsimp only
        rw [Function.update_self]
        exact allowed
  | unlock thread address =>
      dsimp only at taken
      split_ifs at taken
      rcases of_call taken with ⟨idle, rfl⟩
      refine invariant.rest idle (fun _ => ⟨rfl, rfl, rfl⟩) rfl rfl rfl ?_
      intro other another different owned
      unfold State.setLock
      dsimp only
      have elsewhere : another ≠ address := by
        rintro rfl
        exact different (Option.some.inj (owned.symm.trans allowed))
      rw [Function.update_of_ne elsewhere]
      exact owned
  | put thread address =>
      rcases of_call taken with ⟨idle, rfl⟩
      exact invariant.put idle allowed
  | setLinks thread address numLinks =>
      rcases of_call taken with ⟨idle, rfl⟩
      refine invariant.rest idle ?_ rfl rfl rfl
        (fun _ _ _ owned => owned)
      intro other
      dsimp only
      by_cases equal : other = address
      · rw [equal, Function.update_self]
        exact ⟨rfl, rfl, rfl⟩
      · rw [Function.update_of_ne equal]
        exact ⟨rfl, rfl, rfl⟩
  | advance thread =>
      dsimp only at taken
      cases moved : InodeLifetime.advance state thread with
      | some next =>
          rw [moved] at taken
          cases taken
          exact invariant.advance moved
      | none =>
          rw [moved] at taken
          cases taken

end Invariant

/--
Whoever holds an inode finds it valid, on the list and not freed, and there is
one inode for a number, as long as `inode_get` does not run for a number whose
inode a put is freeing.
-/
theorem held_inode_stays
    {count : Nat}
    {labels : List (Label count)}
    {finish : State count}
    (run :
      Run (Takes step)
        (fun state label => Allowed state label ∧ Careful state label)
        initial labels finish) :
    Safe finish := by
  have invariant : Invariant finish := by
    refine run.invariant invariant_initial ?_
    intro source label target invariant permitted taken
    exact invariant.of_step permitted.1 permitted.2 taken
  exact invariant.safe

/-! ## An inode which is found while it is freed -/

section Example

variable {count : Nat}

instance (state : State count) (label : Label count) :
    Decidable (Allowed state label) :=
  match label with
  | .get _ _ => inferInstanceAs (Decidable True)
  | .find _ _ _ => inferInstanceAs (Decidable (_ ∉ _))
  | .share _ _ => inferInstanceAs (Decidable (_ < _))
  | .lock _ _ => inferInstanceAs (Decidable (_ < _))
  | .unlock _ _ => inferInstanceAs (Decidable (_ = _))
  | .put _ _ => inferInstanceAs (Decidable (_ < _))
  | .setLinks _ _ _ => inferInstanceAs (Decidable (_ = _))
  | .advance _ => inferInstanceAs (Decidable True)

instance (state : State count) (inodeNo : Nat) :
    Decidable (Quiet state inodeNo) :=
  inferInstanceAs
    (Decidable
      (∀ thread, ∀ address ∈ (state.threads thread).phase.freeing,
        (state.nodes address).inodeNo ≠ inodeNo))

/-- Whether the label keeps to the condition of the theorem. -/
def isCareful (state : State count) : Label count → Bool
  | .find thread _ _ =>
      match (state.threads thread).phase with
      | .get inodeNo => decide (Quiet state inodeNo)
      | _ => true
  | _ => true

theorem careful_of_isCareful
    {state : State count}
    {label : Label count}
    (checked : isCareful state label = true) :
    Careful state label := by
  cases label with
  | find thread _ _ =>
      unfold isCareful at checked
      unfold Careful
      dsimp only at checked ⊢
      cases here : (state.threads thread).phase with
      | get inodeNo =>
          rw [here] at checked
          exact of_decide_eq_true checked
      | _ => exact trivial
  | _ => exact trivial

end Example

/--
Threads 0 and 1 hold an inode without links.  Thread 0 puts it, thread 1 locks,
unlocks and puts it, and then thread 0 gets the number again.
-/
def putTwice : List (Label 2) :=
  [.get 0 1, .find 0 100 0, .get 1 1, .find 1 101 0, .put 0 100] ++
    List.replicate 4 (.advance 0) ++
    [.lock 1 100, .advance 1, .unlock 1 100, .put 1 100] ++
    List.replicate 7 (.advance 1) ++ [.get 0 1, .find 0 102 3]

/--
Thread 0 puts an inode without links up to `inode_clear`, thread 1 gets its
number, and thread 0 frees it.
-/
def getWhileFreed : List (Label 2) :=
  [.get 0 1, .find 0 100 0, .put 0 100] ++
    List.replicate 3 (.advance 0) ++ [.get 1 1, .find 1 101 0] ++
    List.replicate 4 (.advance 0)

theorem held_inode_stays_put_twice :
    ∃ finish : State 2,
      Run (Takes step)
          (fun state label => Allowed state label ∧ Careful state label)
          initial putTwice finish ∧
        finish.head = [102] ∧ finish.allocated = [102] ∧
        Safe finish := by
  have computed :
      ((executeChecked step
        (fun state label =>
          decide (Allowed state label) && isCareful state label)
        initial putTwice).map fun state =>
          (state.head, state.allocated)) = some ([102], [102]) := by
    decide +kernel
  rcases Option.map_eq_some_iff.mp computed with ⟨finish, executed, values⟩
  have run :
      Run (Takes step)
        (fun state label => Allowed state label ∧ Careful state label)
        initial putTwice finish := by
    refine Run.of_executeChecked ?_ executed
    intro state label checked
    rw [Bool.and_eq_true] at checked
    exact ⟨of_decide_eq_true checked.1, careful_of_isCareful checked.2⟩
  simp only [Prod.mk.injEq] at values
  exact ⟨finish, run, values.1, values.2, held_inode_stays run⟩

/-- Thread 1 holds an inode which is freed. -/
theorem freed_while_held :
    ∃ finish : State 2,
      Run (Takes step) Allowed initial getWhileFreed finish ∧
        (finish.threads 1).refs 100 = 1 ∧ finish.allocated = [] ∧
        ¬ Safe finish := by
  have computed :
      ((executeChecked step
        (fun state label => decide (Allowed state label))
        initial getWhileFreed).map fun state =>
          ((state.threads 1).refs 100, state.allocated)) =
        some (1, []) := by
    decide +kernel
  rcases Option.map_eq_some_iff.mp computed with ⟨finish, executed, values⟩
  have run :
      Run (Takes step) Allowed initial getWhileFreed finish :=
    Run.of_executeChecked (fun _ _ => of_decide_eq_true) executed
  simp only [Prod.mk.injEq] at values
  rcases values with ⟨holds, freed⟩
  refine ⟨finish, run, holds, freed, ?_⟩
  intro safe
  have positive : 0 < (finish.threads 1).refs 100 := by
    rw [holds]
    exact Nat.zero_lt_one
  have kept := (safe.held 1 100 positive).1
  rw [freed] at kept
  exact List.not_mem_nil kept

end FudanOS.Fs.InodeLifetime
