import FudanOS.Library.Runs
import Mathlib.Data.List.Nodup
import Mathlib.Logic.Function.Basic

/-!
# The queue of free pages

`add_to_queue` and `fetch_from_queue` of `common/list.c`, one access to shared
memory at a time, on any number of CPUs.  The memory is sequentially
consistent.  `__atomic_compare_exchange_n` is the weak one, so it may fail
although the values are equal.

A page has its own `next` in its first bytes, so the owner of a page may write
there as well.
-/

namespace FudanOS.Common.Queue

open FudanOS.Library.Runs

/-- Where a CPU is in the functions of the queue. -/
inductive Phase where
  | idle
  /-- `add_to_queue(head, node)` before it loads `*head` -/
  | adding (node : Nat)
  /-- `add_to_queue` before it stores `node->next` -/
  | addLoaded (node : Nat) (seen : Option Nat)
  /-- `add_to_queue` before its exchange -/
  | addStored (node : Nat)
  /-- `fetch_from_queue(head)` before it loads `*head` -/
  | fetching
  /-- `fetch_from_queue` before it loads `node->next` -/
  | fetchLoaded (node : Nat)
  /-- `fetch_from_queue` before its exchange -/
  | fetchNext (node : Nat) (next : Option Nat)
  deriving DecidableEq

/-- What a call has done when it returns. -/
inductive Event where
  | added (node : Nat)
  | fetched (node : Nat)
  deriving DecidableEq

structure State (count : Nat) where
  head : Option Nat
  next : Nat → Option Nat
  cpus : Fin count → Phase
  /-- The calls which have returned a node, the latest first. -/
  history : List Event

inductive Label (count : Nat) where
  | add (cpu : Fin count) (node : Nat)
  | fetch (cpu : Fin count)
  /-- The next access of a CPU. -/
  | advance (cpu : Fin count)
  /-- The exchange of a CPU fails for no reason. -/
  | spurious (cpu : Fin count)
  /-- The owner of a page writes over `next`. -/
  | write (node : Nat) (value : Option Nat)

section Steps

variable {count : Nat}

def State.setPhase (state : State count) (cpu : Fin count)
    (phase : Phase) : State count :=
  { state with cpus := Function.update state.cpus cpu phase }

/-- The exchange of `add_to_queue` fails and stores what it has seen. -/
def addFails (state : State count) (cpu : Fin count) (node : Nat) :
    State count :=
  { state with
    next := Function.update state.next node state.head }.setPhase cpu
      (.adding node)

/-- The next access of a CPU, if it is in a function of the queue. -/
def advance (state : State count) (cpu : Fin count) :
    Option (State count) :=
  match state.cpus cpu with
  | .idle => none
  | .adding node => some (state.setPhase cpu (.addLoaded node state.head))
  | .addLoaded node seen =>
      some
        ({ state with
          next := Function.update state.next node seen }.setPhase cpu
            (.addStored node))
  | .addStored node =>
      if state.head = state.next node then
        some
          ({ state with
            head := some node
            history := .added node :: state.history }.setPhase cpu .idle)
      else
        some (addFails state cpu node)
  | .fetching =>
      match state.head with
      | none => some (state.setPhase cpu .idle)
      | some node => some (state.setPhase cpu (.fetchLoaded node))
  | .fetchLoaded node =>
      some (state.setPhase cpu (.fetchNext node (state.next node)))
  | .fetchNext node next =>
      if state.head = some node then
        some
          ({ state with
            head := next
            history := .fetched node :: state.history }.setPhase cpu
              .idle)
      else
        some (state.setPhase cpu .fetching)

/-- The weak exchange fails. -/
def spurious (state : State count) (cpu : Fin count) :
    Option (State count) :=
  match state.cpus cpu with
  | .addStored node => some (addFails state cpu node)
  | .fetchNext _ _ => some (state.setPhase cpu .fetching)
  | _ => none

def step (state : State count) (label : Label count) :
    Except Unit (State count) :=
  match label with
  | .add cpu node =>
      if state.cpus cpu = .idle then
        .ok (state.setPhase cpu (.adding node))
      else
        .error ()
  | .fetch cpu =>
      if state.cpus cpu = .idle then
        .ok (state.setPhase cpu .fetching)
      else
        .error ()
  | .advance cpu =>
      match advance state cpu with
      | some target => .ok target
      | none => .error ()
  | .spurious cpu =>
      match spurious state cpu with
      | some target => .ok target
      | none => .error ()
  | .write node value =>
      .ok { state with next := Function.update state.next node value }

end Steps

/-- The queue before the first page is added. -/
def initial (count : Nat) : State count where
  head := none
  next := fun _ => none
  cpus := fun _ => .idle
  history := []

/-! ## What the queue is for -/

/-- The node has been added and not been fetched since. -/
def queued : List Event → Nat → Bool
  | [], _ => false
  | .added other :: rest, node => other == node || queued rest node
  | .fetched other :: rest, node => other != node && queued rest node

/-- The nodes from `head` on, along `next`. -/
def Path (next : Nat → Option Nat) : Option Nat → List Nat → Prop
  | head, [] => head = none
  | head, node :: rest => head = some node ∧ Path next (next node) rest

/--
A node is fetched once for each time it is added, and the nodes which are
added and not fetched are those in the queue.
-/
structure HandsOutOnce {count : Nat} (state : State count) : Prop where
  once :
    ∀ node later middle earlier,
      state.history =
          later ++ .fetched node :: middle ++ .fetched node :: earlier →
        .added node ∈ middle
  kept :
    ∃ nodes, Path state.next state.head nodes ∧ nodes.Nodup ∧
      ∀ node, node ∈ nodes ↔ queued state.history node = true

section Discipline

variable {count : Nat}

/-- The node which a CPU is adding. -/
def Phase.adds : Phase → Option Nat
  | .adding node => some node
  | .addLoaded node _ => some node
  | .addStored node => some node
  | _ => none

/-- The node is not in the queue and nobody is adding it. -/
def Owned (state : State count) (node : Nat) : Prop :=
  queued state.history node = false ∧
    ∀ cpu, (state.cpus cpu).adds ≠ some node

/-- Only the owner of a node adds it or writes to it. -/
def Allowed (state : State count) : Label count → Prop
  | .add _ node => Owned state node
  | .write node _ => Owned state node
  | _ => True

/--
If the exchange of a fetch is about to succeed, `node->next` is what the call
has loaded.
-/
def Phase.Current (state : State count) : Phase → Prop
  | .fetchNext node next =>
      state.head = some node → state.next node = next
  | _ => True

/-- No exchange of a fetch succeeds with a successor of long ago. -/
def Careful (state : State count) : Label count → Prop
  | .advance cpu => (state.cpus cpu).Current state
  | _ => True

end Discipline

/-! ## Lemmas on paths and histories -/

theorem Path.update
    {next : Nat → Option Nat}
    {nodes : List Nat}
    {node : Nat}
    (value : Option Nat)
    (outside : node ∉ nodes)
    {head : Option Nat}
    (path : Path next head nodes) :
    Path (Function.update next node value) head nodes := by
  induction nodes generalizing head with
  | nil => exact path
  | cons first rest ih =>
      rcases path with ⟨here, there⟩
      have different : first ≠ node := by
        rintro rfl
        exact outside List.mem_cons_self
      refine ⟨here, ?_⟩
      rw [Function.update_of_ne different]
      exact ih (fun member => outside (List.mem_cons_of_mem _ member))
        there

/-- Only nodes of the queue have been fetched. -/
def Proper : List Event → Prop
  | [] => True
  | .added _ :: rest => Proper rest
  | .fetched node :: rest => queued rest node = true ∧ Proper rest

theorem Proper.of_append
    {later earlier : List Event}
    (proper : Proper (later ++ earlier)) :
    Proper earlier := by
  induction later with
  | nil => exact proper
  | cons event rest ih =>
      cases event with
      | added node => exact ih proper
      | fetched node => exact ih proper.2

/-- A node which was fetched is in the queue again only if it was added. -/
theorem added_of_queued
    {node : Nat}
    {middle earlier : List Event}
    (inQueue : queued (middle ++ .fetched node :: earlier) node = true) :
    .added node ∈ middle := by
  induction middle with
  | nil => simp [queued] at inQueue
  | cons event rest ih =>
      cases event with
      | added other =>
          simp only [List.cons_append, queued, Bool.or_eq_true,
            beq_iff_eq] at inQueue
          rcases inQueue with rfl | later
          · exact List.mem_cons_self
          · exact List.mem_cons_of_mem _ (ih later)
      | fetched other =>
          simp only [List.cons_append, queued, Bool.and_eq_true] at inQueue
          exact List.mem_cons_of_mem _ (ih inQueue.2)

theorem Proper.once
    {node : Nat}
    {later middle earlier : List Event}
    (proper :
      Proper
        (later ++ .fetched node :: middle ++ .fetched node :: earlier)) :
    .added node ∈ middle := by
  rw [List.append_assoc] at proper
  exact added_of_queued proper.of_append.1

/-! ## The invariant -/

structure Invariant {count : Nat} (state : State count) : Prop where
  linked :
    ∃ nodes, Path state.next state.head nodes ∧ nodes.Nodup ∧
      ∀ node, node ∈ nodes ↔ queued state.history node = true
  proper : Proper state.history
  outside :
    ∀ cpu node, (state.cpus cpu).adds = some node →
      queued state.history node = false
  apart :
    ∀ cpu other node, (state.cpus cpu).adds = some node →
      (state.cpus other).adds = some node → cpu = other

namespace Invariant

variable
    {count : Nat}
    {state : State count}
    {cpu : Fin count}
    {node : Nat}

/-- A node outside the queue may point anywhere. -/
theorem setNext
    (holds : Invariant state)
    (absent : queued state.history node = false)
    (value : Option Nat) :
    Invariant
      { state with next := Function.update state.next node value } := by
  refine ⟨?_, holds.proper, holds.outside, holds.apart⟩
  rcases holds.linked with ⟨nodes, path, nodup, members⟩
  refine ⟨nodes, path.update value ?_, nodup, members⟩
  intro member
  rw [(members node).mp member] at absent
  cases absent

/-- A CPU goes on with the node which it adds, or without any. -/
theorem setPhase
    (holds : Invariant state)
    {phase : Phase}
    (same :
      ∀ node, phase.adds = some node → (state.cpus cpu).adds = some node) :
    Invariant (state.setPhase cpu phase) := by
  have before :
      ∀ other node,
        ((state.setPhase cpu phase).cpus other).adds = some node →
          (state.cpus other).adds = some node := by
    intro other node adds
    unfold State.setPhase at adds
    dsimp only at adds
    by_cases here : other = cpu
    · subst here
      rw [Function.update_self] at adds
      exact same node adds
    · rwa [Function.update_of_ne here] at adds
  refine ⟨holds.linked, holds.proper, ?_, ?_⟩
  · intro other node adds
    exact holds.outside other node (before other node adds)
  · intro first second node adds alsoAdds
    exact holds.apart first second node (before first node adds)
      (before second node alsoAdds)

/-- `add_to_queue` is called. -/
theorem add
    (holds : Invariant state)
    (owned : Owned state node) :
    Invariant (state.setPhase cpu (.adding node)) := by
  have cases :
      ∀ other found,
        ((state.setPhase cpu (.adding node)).cpus other).adds =
            some found →
          (other = cpu ∧ found = node) ∨
            (state.cpus other).adds = some found := by
    intro other found adds
    unfold State.setPhase at adds
    dsimp only at adds
    by_cases here : other = cpu
    · subst here
      rw [Function.update_self] at adds
      cases adds
      exact Or.inl ⟨rfl, rfl⟩
    · rw [Function.update_of_ne here] at adds
      exact Or.inr adds
  refine ⟨holds.linked, holds.proper, ?_, ?_⟩
  · intro other found adds
    rcases cases other found adds with ⟨-, rfl⟩ | before
    · exact owned.1
    · exact holds.outside other found before
  · intro first second found adds alsoAdds
    rcases cases first found adds with ⟨rfl, rfl⟩ | before
    · rcases cases second found alsoAdds with ⟨rfl, -⟩ | after
      · rfl
      · exact absurd after (owned.2 second)
    · rcases cases second found alsoAdds with ⟨rfl, rfl⟩ | after
      · exact absurd before (owned.2 first)
      · exact holds.apart first second found before after

/-- The exchange of `add_to_queue` succeeds. -/
theorem added
    (holds : Invariant state)
    (adds : (state.cpus cpu).adds = some node)
    (seen : state.head = state.next node) :
    Invariant
      ({ state with
        head := some node
        history := .added node :: state.history }.setPhase cpu
          .idle) := by
  have absent := holds.outside cpu node adds
  have before :
      ∀ other found,
        (Function.update state.cpus cpu .idle other).adds = some found →
          other ≠ cpu ∧ (state.cpus other).adds = some found := by
    intro other found stillAdds
    by_cases here : other = cpu
    · subst here
      rw [Function.update_self] at stillAdds
      cases stillAdds
    · rw [Function.update_of_ne here] at stillAdds
      exact ⟨here, stillAdds⟩
  refine ⟨?_, holds.proper, ?_, ?_⟩
  · rcases holds.linked with ⟨nodes, path, nodup, members⟩
    refine ⟨node :: nodes, ⟨rfl, ?_⟩, ?_, ?_⟩
    · change Path state.next (state.next node) nodes
      rw [← seen]
      exact path
    · refine List.nodup_cons.mpr ⟨?_, nodup⟩
      intro member
      rw [(members node).mp member] at absent
      cases absent
    · intro other
      change _ ↔ queued (.added node :: state.history) other = true
      rw [List.mem_cons, queued, Bool.or_eq_true, beq_iff_eq,
        members other]
      exact or_congr_left eq_comm
  · intro other found stillAdds
    rcases before other found stillAdds with ⟨different, addsToo⟩
    have distinct : node ≠ found := by
      rintro rfl
      exact different (holds.apart other cpu node addsToo adds)
    change queued (.added node :: state.history) found = false
    rw [queued, holds.outside other found addsToo, Bool.or_false]
    exact beq_eq_false_iff_ne.mpr distinct
  · intro first second found addsFirst addsSecond
    exact holds.apart first second found
      (before first found addsFirst).2 (before second found addsSecond).2

/-- The exchange of `fetch_from_queue` succeeds, with the right successor. -/
theorem fetched
    (holds : Invariant state)
    (first : state.head = some node) :
    Invariant
      ({ state with
        head := state.next node
        history := .fetched node :: state.history }.setPhase cpu
          .idle) := by
  have taken :
      Invariant
        { state with
          head := state.next node
          history := .fetched node :: state.history } := by
    rcases holds.linked with ⟨nodes, path, nodup, members⟩
    cases nodes with
    | nil => exact absurd (first.symm.trans path) (by simp)
    | cons front rest =>
        rcases path with ⟨here, there⟩
        have same : front = node :=
          Option.some.inj (here.symm.trans first)
        subst same
        rcases List.nodup_cons.mp nodup with ⟨fresh, nodupRest⟩
        refine ⟨⟨rest, there, nodupRest, ?_⟩, ?_, ?_, holds.apart⟩
        · intro other
          change _ ↔ queued (.fetched front :: state.history) other = true
          rw [queued, Bool.and_eq_true, bne_iff_ne, ← members other,
            List.mem_cons]
          constructor
          · intro member
            refine ⟨?_, Or.inr member⟩
            rintro rfl
            exact fresh member
          · rintro ⟨different, same | member⟩
            · exact absurd same.symm different
            · exact member
        · exact ⟨(members front).mp List.mem_cons_self, holds.proper⟩
        · intro other found adds
          change queued (.fetched front :: state.history) found = false
          rw [queued, holds.outside other found adds, Bool.and_false]
  exact taken.setPhase fun other adds => by cases adds

end Invariant

section Preservation

variable
    {count : Nat}
    {source target : State count}

theorem invariant_initial : Invariant (initial count) := by
  refine ⟨⟨[], rfl, List.nodup_nil, ?_⟩, trivial, ?_, ?_⟩
  · intro node
    simp [initial, queued]
  · intro cpu node adds
    cases adds
  · intro cpu other node adds
    cases adds

theorem Invariant.addFails
    (holds : Invariant source)
    {cpu : Fin count}
    {node : Nat}
    (adds : (source.cpus cpu).adds = some node) :
    Invariant (addFails source cpu node) := by
  have written :=
    holds.setNext (holds.outside cpu node adds) source.head
  refine written.setPhase fun other same => ?_
  cases same
  exact adds

/-- One access of a CPU. -/
theorem Invariant.advance
    (holds : Invariant source)
    {cpu : Fin count}
    (careful : (source.cpus cpu).Current source)
    (taken : advance source cpu = some target) :
    Invariant target := by
  unfold Queue.advance at taken
  cases phase : source.cpus cpu with
  | idle =>
      rw [phase] at taken
      cases taken
  | adding node =>
      rw [phase] at taken
      cases taken
      refine holds.setPhase fun other same => ?_
      cases same
      rw [phase]
      rfl
  | addLoaded node seen =>
      have adds : (source.cpus cpu).adds = some node := by
        rw [phase]
        rfl
      rw [phase] at taken
      cases taken
      have written := holds.setNext (holds.outside cpu node adds) seen
      refine written.setPhase fun other same => ?_
      cases same
      exact adds
  | addStored node =>
      have adds : (source.cpus cpu).adds = some node := by
        rw [phase]
        rfl
      rw [phase] at taken
      dsimp only at taken
      split_ifs at taken with seen
      · cases taken
        exact holds.added adds seen
      · cases taken
        exact holds.addFails adds
  | fetching =>
      rw [phase] at taken
      dsimp only at taken
      cases top : source.head with
      | none =>
          rw [top] at taken
          cases taken
          exact holds.setPhase fun other same => by cases same
      | some node =>
          rw [top] at taken
          cases taken
          exact holds.setPhase fun other same => by cases same
  | fetchLoaded node =>
      rw [phase] at taken
      cases taken
      exact holds.setPhase fun other same => by cases same
  | fetchNext node next =>
      rw [phase] at taken careful
      dsimp only at taken
      split_ifs at taken with seen
      · cases taken
        rw [← careful seen]
        exact holds.fetched seen
      · cases taken
        exact holds.setPhase fun other same => by cases same

theorem Invariant.spurious
    (holds : Invariant source)
    {cpu : Fin count}
    (taken : spurious source cpu = some target) :
    Invariant target := by
  unfold Queue.spurious at taken
  split at taken
  · rename_i node phase
    cases taken
    refine holds.addFails ?_
    rw [phase]
    rfl
  · cases taken
    exact holds.setPhase fun other same => by cases same
  · cases taken

theorem invariant_of_step
    (holds : Invariant source)
    {label : Label count}
    (allowed : Allowed source label)
    (careful : Careful source label)
    (taken : step source label = .ok target) :
    Invariant target := by
  unfold step at taken
  cases label with
  | add cpu node =>
      dsimp only at taken
      split_ifs at taken
      cases taken
      exact holds.add allowed
  | fetch cpu =>
      dsimp only at taken
      split_ifs at taken
      cases taken
      exact holds.setPhase fun other same => by cases same
  | advance cpu =>
      dsimp only at taken
      cases moved : advance source cpu with
      | none =>
          rw [moved] at taken
          cases taken
      | some next =>
          rw [moved] at taken
          cases taken
          exact holds.advance careful moved
  | spurious cpu =>
      dsimp only at taken
      cases moved : spurious source cpu with
      | none =>
          rw [moved] at taken
          cases taken
      | some next =>
          rw [moved] at taken
          cases taken
          exact holds.spurious moved
  | write node value =>
      cases taken
      exact holds.setNext allowed.1 value

end Preservation

/--
As long as every successful exchange of a fetch installs the successor which
the node still has, the queue hands out every node once.
-/
theorem hands_out_once
    {count : Nat}
    {labels : List (Label count)}
    {finish : State count}
    (run :
      Run (Takes step)
        (fun state label => Allowed state label ∧ Careful state label)
        (initial count) labels finish) :
    HandsOutOnce finish := by
  have holds : Invariant finish := by
    refine run.invariant invariant_initial ?_
    intro source label target holds permitted taken
    exact invariant_of_step holds permitted.1 permitted.2 taken
  refine ⟨?_, holds.linked⟩
  intro node later middle earlier split
  have proper := holds.proper
  rw [split] at proper
  exact proper.once

/-! ## Two nodes and two CPUs -/

instance {count : Nat} (state : State count) (node : Nat) :
    Decidable (Owned state node) :=
  inferInstanceAs (Decidable (_ ∧ _))

instance {count : Nat} (state : State count) (label : Label count) :
    Decidable (Allowed state label) :=
  match label with
  | .add _ node => inferInstanceAs (Decidable (Owned state node))
  | .write node _ => inferInstanceAs (Decidable (Owned state node))
  | .fetch _ => inferInstanceAs (Decidable True)
  | .advance _ => inferInstanceAs (Decidable True)
  | .spurious _ => inferInstanceAs (Decidable True)

instance {count : Nat} (state : State count) (phase : Phase) :
    Decidable (phase.Current state) :=
  match phase with
  | .fetchNext _ _ => inferInstanceAs (Decidable (_ → _))
  | .idle => inferInstanceAs (Decidable True)
  | .adding _ => inferInstanceAs (Decidable True)
  | .addLoaded _ _ => inferInstanceAs (Decidable True)
  | .addStored _ => inferInstanceAs (Decidable True)
  | .fetching => inferInstanceAs (Decidable True)
  | .fetchLoaded _ => inferInstanceAs (Decidable True)

instance {count : Nat} (state : State count) (label : Label count) :
    Decidable (Careful state label) :=
  match label with
  | .advance cpu =>
      inferInstanceAs (Decidable ((state.cpus cpu).Current state))
  | .add _ _ => inferInstanceAs (Decidable True)
  | .write _ _ => inferInstanceAs (Decidable True)
  | .fetch _ => inferInstanceAs (Decidable True)
  | .spurious _ => inferInstanceAs (Decidable True)

/-- A whole call of `add_to_queue` without a failing exchange. -/
def addCall (cpu : Fin 2) (node : Nat) : List (Label 2) :=
  [.add cpu node, .advance cpu, .advance cpu, .advance cpu]

/-- A whole call of `fetch_from_queue` without a failing exchange. -/
def fetchCall (cpu : Fin 2) : List (Label 2) :=
  [.fetch cpu, .advance cpu, .advance cpu, .advance cpu]

/-- CPU 0 has loaded node 1 and its successor 2. -/
def twoNodes : List (Label 2) :=
  addCall 0 2 ++ addCall 0 1 ++ [.fetch 0, .advance 0, .advance 0]

/-- CPU 1 takes both nodes and puts the first one back. -/
def putBack : List (Label 2) :=
  fetchCall 1 ++ fetchCall 1 ++ addCall 1 1

theorem hands_out_once_two_nodes :
    ∃ finish,
      Run (Takes step)
          (fun state label => Allowed state label ∧ Careful state label)
          (initial 2) (twoNodes ++ [.advance 0] ++ fetchCall 1)
          finish ∧
        finish.history = [.fetched 2, .fetched 1, .added 1, .added 2] ∧
        HandsOutOnce finish := by
  have computed :
      ((executeChecked step
        (fun state label =>
          decide (Allowed state label ∧ Careful state label))
        (initial 2) (twoNodes ++ [.advance 0] ++ fetchCall 1)).map
          State.history) =
        some [.fetched 2, .fetched 1, .added 1, .added 2] := by
    decide +kernel
  rcases Option.map_eq_some_iff.mp computed with ⟨finish, executed, done⟩
  have run :
      Run (Takes step)
        (fun state label => Allowed state label ∧ Careful state label)
        (initial 2) (twoNodes ++ [.advance 0] ++ fetchCall 1) finish :=
    Run.of_executeChecked (fun _ _ => of_decide_eq_true) executed
  exact ⟨finish, run, done, hands_out_once run⟩

/--
CPU 0 goes on with its exchange, which makes node 2 the head although CPU 1
has it; the next fetch returns node 2 for the second time.
-/
theorem node_fetched_twice :
    ∃ finish,
      Run (Takes step) Allowed (initial 2)
          (twoNodes ++ putBack ++ [.advance 0] ++ fetchCall 0) finish ∧
        ¬ HandsOutOnce finish := by
  have computed :
      ((executeChecked step
        (fun state label => decide (Allowed state label))
        (initial 2)
        (twoNodes ++ putBack ++ [.advance 0] ++ fetchCall 0)).map
          State.history) =
        some
          [.fetched 2, .fetched 1, .added 1, .fetched 2, .fetched 1,
            .added 1, .added 2] := by
    decide +kernel
  rcases Option.map_eq_some_iff.mp computed with ⟨finish, executed, done⟩
  have run :
      Run (Takes step) Allowed (initial 2)
        (twoNodes ++ putBack ++ [.advance 0] ++ fetchCall 0) finish :=
    Run.of_executeChecked (fun _ _ => of_decide_eq_true) executed
  refine ⟨finish, run, ?_⟩
  intro hands
  have again :=
    hands.once 2 [] [.fetched 1, .added 1]
      [.fetched 1, .added 1, .added 2] done
  exact absurd again (by decide)

end FudanOS.Common.Queue
