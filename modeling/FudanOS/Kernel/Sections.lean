import FudanOS.Kernel.Paging
import FudanOS.Library.CircularList

/-!
# The lists of sections

The circular list of the sections of a page directory: `common/list.c`,
`init_sections` of `kernel/paging.c`, `init_pgdir` of `kernel/pt.c`, and what
`fork` and `execve` do to it.  The head of the list lies in `struct pgdir`,
which both copy by value.

The tables of a page directory are left out, and so is what `fork` and
`execve` do to them: it touches no section, and ends or stops the kernel.
`kalloc` returns memory which is not in use; directories and sections are
never given back to it, so they are numbered in the order of their creation.
-/

namespace FudanOS.Kernel.Sections

open FudanOS.Aarch64.Mmu
open FudanOS.Library.CircularList
open FudanOS.Kernel.Paging

/-! ## Lists -/

section Lists

variable {Node : Type*} [DecidableEq Node]

/-- `init_list_node` -/
def initListNode (links : Links Node) (node : Node) : Links Node :=
  { prev := Function.update links.prev node node
    next := Function.update links.next node node }

/-- `_merge_list` of two nodes which are not `NULL` -/
def mergeList (links : Links Node) (node1 node2 : Node) : Links Node :=
  let node3 := links.next node1
  let node4 := links.prev node2
  let next := Function.update links.next node1 node2
  let prev := Function.update links.prev node2 node1
  { prev := Function.update prev node3 node4
    next := Function.update next node4 node3 }

/-- `_insert_into_list` -/
def insertIntoList (links : Links Node) (list node : Node) : Links Node :=
  mergeList (initListNode links node) list node

/-- `_for_in_list`: the nodes which it visits, if it ends in time -/
def forInList (links : Links Node) (list : Node) (fuel : Nat) :
    Option (List Node) :=
  links.walk list fuel (links.next list)

end Lists

/-! ## Page directories -/

inductive Pgdir where
  /-- `pgdir` of a process -/
  | proc (number : Nat)
  /-- A directory which `kalloc` has returned. -/
  | heap (number : Nat)
  /-- `old_pgdir` of `execve` -/
  | old
  deriving DecidableEq

inductive Node where
  /-- `section_head` -/
  | head (pgdir : Pgdir)
  /-- `stnode` -/
  | sec (number : Nat)
  deriving DecidableEq

structure State where
  links : Links Node
  sections : Nat → Section
  /-- The numbers of what was created. -/
  sectionCount : Nat
  pgdirCount : Nat
  procCount : Nat

/-- `ST_HEAP` -/
def stHeap : Word := 1 <<< 3

/-- `init_sections(&pgdir->section_head)` -/
def initSections (state : State) (pgdir : Pgdir) : State :=
  let number := state.sectionCount
  { state with
    links := insertIntoList state.links (.head pgdir) (.sec number)
    sections :=
      Function.update state.sections number
        { flags := stHeap, begin := 0, end_ := 0, sleepLock := 1 }
    sectionCount := number + 1 }

/-- `init_pgdir` -/
def initPgdir (state : State) (pgdir : Pgdir) : State :=
  initSections
    { state with links := initListNode state.links (.head pgdir) } pgdir

/-- `*target = *source` -/
def copyPgdir (state : State) (source target : Pgdir) : State :=
  let links := state.links
  { state with
    links :=
      { prev :=
          Function.update links.prev (.head target)
            (links.prev (.head source))
        next :=
          Function.update links.next (.head target)
            (links.next (.head source)) } }

/-! ## `fork` and `execve` -/

/--
`fork`, with the number of the child.  `loops` is what becomes of the loops
which copy the pages.
-/
def fork (state : State) (loops : Except Unit Unit) :
    Except Unit (Nat × State) := do
  let child := state.procCount
  let state := { state with procCount := child + 1 }
  let state := initPgdir state (.proc child)
  let temp := state.pgdirCount
  let state := { state with pgdirCount := temp + 1 }
  let state := initPgdir state (.heap temp)
  loops
  let state := copyPgdir state (.heap temp) (.proc child)
  return (child, state)

/-- What `execve` reads of a file before it decides to load it. -/
structure Elf where
  /-- What `inodes.read` of the header returns. -/
  count : Nat
  /-- `e_ident` -/
  ident : Nat → Nat

/-- `sizeof(Elf64_Ehdr)` -/
def ehdrSize : Nat := 64

/-- The tests which `execve` makes of the header. -/
def Elf.accepted (elf : Elf) : Bool :=
  elf.count = ehdrSize ∧
    (elf.ident 0 = 0x7F ∧ elf.ident 1 = 0x45 ∧ elf.ident 2 = 0x4C ∧
      elf.ident 3 = 0x46) ∧
    elf.ident 4 = 2

/--
`execve` of the process `number`, where `file` is what `namei` has found.
`rest` is what becomes of the loading and of the copying of the arguments.
-/
def execve (state : State) (number : Nat) (file : Option Elf)
    (rest : Except Unit Unit) : Except Unit (Int × State) := do
  let state := copyPgdir state (.proc number) .old
  let pgdir := state.pgdirCount
  let state := { state with pgdirCount := pgdir + 1 }
  let state := initPgdir state (.heap pgdir)
  let bad := (-1, copyPgdir state .old (.proc number))
  match file with
  | none => return bad
  | some elf =>
      if elf.accepted then do
        let state := copyPgdir state (.heap pgdir) (.proc number)
        rest
        let state := copyPgdir state (.heap pgdir) (.proc number)
        return (0, state)
      else
        return bad

/-! ## What the callers may expect -/

/-- The list of a directory leads through the sections and back. -/
def ListOf (state : State) (pgdir : Pgdir) (numbers : List Nat) : Prop :=
  Ring state.links (.head pgdir) (numbers.map .sec) ∧
    ∀ number ∈ numbers, number < state.sectionCount

/-- The list of a process is well formed. -/
def WellFormed (state : State) (number : Nat) : Prop :=
  ∃ numbers, ListOf state (.proc number) numbers

/-- A walk along the list of a process ends. -/
def WalkEnds (state : State) (number : Nat) : Prop :=
  ∃ fuel visited,
    forInList state.links (.head (.proc number)) fuel = some visited

/-- The fields of a section which a child inherits. -/
def fields (state : State) (number : Nat) : Word × Word × Word :=
  let sec := state.sections number
  (sec.flags, sec.begin, sec.end_)

/-- After `fork`: the child has a list of its own, with the same sections. -/
structure ForkKeeps
    (state target : State)
    (parent child : Nat) : Prop where
  wellFormed : WellFormed target child
  ends : WalkEnds target child
  copied :
    ∀ numbers, ListOf state (.proc parent) numbers →
      ∃ copies,
        ListOf target (.proc child) copies ∧
          copies.map (fields target) = numbers.map (fields state)

/-- After `execve`: the process has a list of its own. -/
structure ExecKeeps (target : State) (number : Nat) : Prop where
  wellFormed : WellFormed target number
  ends : WalkEnds target number

/-- `execve` gets to the new program. -/
def Loads (file : Option Elf) : Prop :=
  ∃ elf, file = some elf ∧ elf.accepted = true

/-! ## Lists which are made -/

section Made

variable
    {state : State}
    {pgdir source target : Pgdir}
    {numbers : List Nat}

theorem mergeList_eq
    {Node : Type*}
    [DecidableEq Node]
    (links : Links Node)
    (node1 node2 : Node) :
    mergeList links node1 node2 = links.merge node1 node2 :=
  rfl

theorem initListNode_eq
    {Node : Type*}
    [DecidableEq Node]
    (links : Links Node)
    (node : Node) :
    initListNode links node = links.single node :=
  rfl

/-- A walk along a well-formed list ends. -/
theorem WellFormed.ends
    {number : Nat}
    (wellFormed : WellFormed state number) :
    WalkEnds state number := by
  rcases wellFormed with ⟨numbers, ring, -⟩
  exact ⟨_, _, ring.walk⟩

/-- `init_pgdir` makes a list with one section. -/
theorem listOf_initPgdir
    (state : State)
    (pgdir : Pgdir) :
    ListOf (initPgdir state pgdir) pgdir [state.sectionCount] := by
  constructor
  · have alone := ring_single state.links (Node.head pgdir)
    have apart : Node.sec state.sectionCount ∉ [Node.head pgdir] := by
      simp
    exact (alone.single apart).merge
      (ring_single _ (Node.sec state.sectionCount)) (by simp)
  · intro number member
    cases List.mem_singleton.mp member
    exact Nat.lt_succ_self _

/-- The lists of other directories stay. -/
theorem ListOf.initPgdir
    (listed : ListOf state source numbers)
    (different : source ≠ pgdir) :
    ListOf (Sections.initPgdir state pgdir) source numbers := by
  rcases listed with ⟨ring, known⟩
  have notHead :
      Node.head pgdir ∉ Node.head source :: numbers.map .sec := by
    simpa using different.symm
  have notSection :
      Node.sec state.sectionCount ∉
        Node.head source :: numbers.map .sec := by
    simp only [List.mem_cons, reduceCtorEq, List.mem_map, Node.sec.injEq,
      false_or, not_exists, not_and]
    rintro number member rfl
    exact Nat.lt_irrefl _ (known _ member)
  constructor
  · have kept := (ring.single notHead).single notSection
    apply kept.merge_others notHead notSection
    · have self :
          ((state.links.single (.head pgdir)).single
            (.sec state.sectionCount)).next (.head pgdir) =
              .head pgdir := by
        simp [Links.single, Function.update]
      rw [self]
      exact notHead
    · have self :
          ((state.links.single (.head pgdir)).single
            (.sec state.sectionCount)).prev (.sec state.sectionCount) =
              .sec state.sectionCount := by
        simp [Links.single]
      rw [self]
      exact notSection
  · intro number member
    exact Nat.lt_succ_of_lt (known number member)

/-- A copy of a directory leaves the lists of others. -/
theorem ListOf.copyPgdir
    {other : Pgdir}
    (listed : ListOf state other numbers)
    (different : other ≠ target) :
    ListOf (Sections.copyPgdir state source target) other numbers := by
  rcases listed with ⟨ring, known⟩
  have notHead :
      Node.head target ∉ Node.head other :: numbers.map .sec := by
    simpa using different.symm
  refine ⟨?_, known⟩
  apply ring.congr
  · intro node member
    exact Function.update_of_ne (ne_of_mem_of_not_mem member notHead) ..
  · intro node member
    exact Function.update_of_ne (ne_of_mem_of_not_mem member notHead) ..

/-- After a copy, a walk from the new head stays in the list of the old one. -/
theorem not_walkEnds_of_copy
    {number : Nat}
    (listed : ListOf state source numbers)
    (different : source ≠ .proc number) :
    ¬ WalkEnds (Sections.copyPgdir state source (.proc number)) number := by
  rintro ⟨fuel, visited, walked⟩
  have outside :
      Node.head (.proc number) ∉ Node.head source :: numbers.map .sec := by
    simpa using different.symm
  have never :
      (Sections.copyPgdir state source (.proc number)).links.walk
        (.head (.proc number)) fuel
        ((Sections.copyPgdir state source (.proc number)).links.next
          (.head (.proc number))) = none :=
    walk_eq_none { node | node ∈ Node.head source :: numbers.map .sec }
      (by
        have entered :
            (Sections.copyPgdir state source (.proc number)).links.next
                (.head (.proc number)) =
              state.links.next (.head source) :=
          Function.update_self ..
        rw [entered]
        exact listed.1.next_mem List.mem_cons_self)
      (by
        intro node member
        have same :
            (Sections.copyPgdir state source (.proc number)).links.next
                node =
              state.links.next node :=
          Function.update_of_ne (ne_of_mem_of_not_mem member outside) ..
        rw [same]
        exact listed.1.next_mem member)
      outside fuel
  unfold forInList at walked
  rw [never] at walked
  cases walked

/-- A copy which brings the links of the head back. -/
theorem ListOf.restore
    {number : Nat}
    (listed : ListOf state (.proc number) numbers)
    (next :
      state.links.next (.head source) =
        state.links.next (.head (.proc number)))
    (prev :
      state.links.prev (.head source) =
        state.links.prev (.head (.proc number))) :
    ListOf (Sections.copyPgdir state source (.proc number)) (.proc number)
      numbers := by
  have same :
      (Sections.copyPgdir state source (.proc number)).links =
        state.links := by
    unfold Sections.copyPgdir
    dsimp only
    rw [next, prev, Function.update_eq_self, Function.update_eq_self]
  refine ⟨?_, listed.2⟩
  rw [same]
  exact listed.1

/-- The links of other heads stay. -/
theorem initPgdir_head
    (state : State)
    (source pgdir : Pgdir)
    (different : source ≠ pgdir) :
    (initPgdir state pgdir).links.next (.head source) =
        state.links.next (.head source) ∧
      (initPgdir state pgdir).links.prev (.head source) =
        state.links.prev (.head source) := by
  have notHead : Node.head source ≠ .head pgdir := by
    simpa using different
  have notSection : Node.head source ≠ .sec state.sectionCount := nofun
  constructor
  · simp [initPgdir, initSections, insertIntoList, mergeList, initListNode,
      Function.update, notHead]
  · simp [initPgdir, initSections, insertIntoList, mergeList, initListNode,
      Function.update, notHead]

end Made

/-! ## What `fork` and `execve` leave -/

section Calls

variable
    {state target : State}
    {number child : Nat}
    {loops rest : Except Unit Unit}
    {file : Option Elf}
    {returned : Int}

/-- A walk along the list of the child does not end. -/
theorem not_walkEnds_fork
    (forked : fork state loops = .ok (child, target)) :
    ¬ WalkEnds target child := by
  unfold fork at forked
  cases loops with
  | error _ => cases forked
  | ok _ =>
      cases forked
      exact not_walkEnds_of_copy (listOf_initPgdir _ _) nofun

/-- What `execve` has made before it looks for the file. -/
def begun (state : State) (number : Nat) : State :=
  let state := copyPgdir state (.proc number) .old
  initPgdir { state with pgdirCount := state.pgdirCount + 1 }
    (.heap state.pgdirCount)

theorem execve_eq :
    execve state number file rest =
      match file with
      | none => .ok (-1, copyPgdir (begun state number) .old (.proc number))
      | some elf =>
          if elf.accepted then
            rest.bind fun _ =>
              .ok
                (0,
                  copyPgdir
                    (copyPgdir (begun state number)
                      (.heap state.pgdirCount) (.proc number))
                    (.heap state.pgdirCount) (.proc number))
          else
            .ok
              (-1, copyPgdir (begun state number) .old (.proc number)) :=
  rfl

/-- The list of the process is as it was, and `old_pgdir` has its head. -/
theorem begun_keeps
    {numbers : List Nat}
    (listed : ListOf state (.proc number) numbers) :
    ListOf (copyPgdir (begun state number) .old (.proc number))
      (.proc number) numbers := by
  have saved :
      ListOf (copyPgdir state (.proc number) .old) (.proc number)
        numbers :=
    listed.copyPgdir nofun
  have made : ListOf (begun state number) (.proc number) numbers :=
    ListOf.initPgdir ⟨saved.1, saved.2⟩ nofun
  have head := initPgdir_head
    { copyPgdir state (.proc number) .old with
      pgdirCount := state.pgdirCount + 1 }
    (.proc number) (.heap state.pgdirCount) nofun
  have old := initPgdir_head
    { copyPgdir state (.proc number) .old with
      pgdirCount := state.pgdirCount + 1 }
    .old (.heap state.pgdirCount) nofun
  have copied :
      (copyPgdir state (.proc number) .old).links.next (.head .old) =
          (copyPgdir state (.proc number) .old).links.next
            (.head (.proc number)) ∧
        (copyPgdir state (.proc number) .old).links.prev (.head .old) =
          (copyPgdir state (.proc number) .old).links.prev
            (.head (.proc number)) := by
    constructor
    · simp [copyPgdir, Function.update]
    · simp [copyPgdir, Function.update]
  exact made.restore (old.1.trans (copied.1.trans head.1.symm))
    (old.2.trans (copied.2.trans head.2.symm))

/-- `execve` leaves the list as it was, or with the head of another one. -/
theorem execve_leaves
    (wellFormed : WellFormed state number)
    (called : execve state number file rest = .ok (returned, target)) :
    (¬ Loads file → WellFormed target number) ∧
      (Loads file → ¬ WalkEnds target number) := by
  rcases wellFormed with ⟨numbers, listed⟩
  rw [execve_eq] at called
  cases file with
  | none =>
      cases called
      refine ⟨fun _ => ⟨numbers, begun_keeps listed⟩, ?_⟩
      rintro ⟨elf, same, -⟩
      cases same
  | some elf =>
      dsimp only at called
      by_cases accepted : elf.accepted = true
      · rw [if_pos accepted] at called
        refine ⟨fun refused => absurd ⟨elf, rfl, accepted⟩ refused, ?_⟩
        intro _
        cases rest with
        | error _ => cases called
        | ok _ =>
            cases called
            have made : ListOf (begun state number)
                (.heap state.pgdirCount) _ :=
              listOf_initPgdir _ _
            have kept :
                ListOf
                  (copyPgdir (begun state number) (.heap state.pgdirCount)
                    (.proc number)) (.heap state.pgdirCount) _ :=
              made.copyPgdir nofun
            exact not_walkEnds_of_copy kept nofun
      · rw [if_neg accepted] at called
        cases called
        refine ⟨fun _ => ⟨numbers, begun_keeps listed⟩, ?_⟩
        rintro ⟨other, same, isAccepted⟩
        cases same
        exact absurd isAccepted accepted

end Calls

/--
The list of the child is never well formed.  After `execve` the list is well
formed exactly if no program was loaded.
-/
theorem lists_kept_iff (state : State) :
    (∀ parent loops child target,
        fork state loops = .ok (child, target) →
          ¬ ForkKeeps state target parent child) ∧
      ∀ number file rest returned target,
        WellFormed state number →
          execve state number file rest = .ok (returned, target) →
            (ExecKeeps target number ↔ ¬ Loads file) := by
  constructor
  · intro parent loops child target forked keeps
    exact not_walkEnds_fork forked keeps.ends
  · intro number file rest returned target wellFormed called
    rcases execve_leaves wellFormed called with ⟨refused, loaded⟩
    constructor
    · intro keeps loads
      exact loaded loads keeps.ends
    · intro refusal
      have kept := refused refusal
      exact ⟨kept, kept.ends⟩

/-- A process whose heap ends at `0x3000`. -/
def parentState : State :=
  let state : State :=
    { links := ⟨fun _ => .head .old, fun _ => .head .old⟩
      sections := fun _ => ⟨0, 0, 0, 0⟩
      sectionCount := 0
      pgdirCount := 0
      procCount := 1 }
  let state := initPgdir state (.proc 0)
  { state with
    sections :=
      Function.update state.sections 0
        { state.sections 0 with end_ := 0x3000 } }

theorem parentState_listOf : ListOf parentState (.proc 0) [0] :=
  listOf_initPgdir _ _

/-- A file which is not found, and one which is loaded. -/
theorem lists_kept_parentState :
    (∃ target,
      execve parentState 0 none (.ok ()) = .ok (-1, target) ∧
        ExecKeeps target 0) ∧
      ∃ child target,
        fork parentState (.ok ()) = .ok (child, target) ∧
          ¬ ForkKeeps parentState target 0 child := by
  constructor
  · have found :=
      ((lists_kept_iff parentState).2 0 none (.ok ()) (-1) _
        ⟨_, parentState_listOf⟩ rfl).mpr (by
          rintro ⟨elf, same, -⟩
          cases same)
    exact ⟨_, rfl, found⟩
  · exact ⟨1, _, rfl, (lists_kept_iff parentState).1 0 (.ok ()) 1 _ rfl⟩

/-- A header which `execve` accepts. -/
def smallElf : Elf where
  count := 64
  ident := fun index => [0x7F, 0x45, 0x4C, 0x46, 2].getD index 0

/--
A walk along the list of the child does not end, and its heap ends at 0
instead of `0x3000`; after `execve` a walk does not end either.
-/
theorem lists_not_kept :
    (∃ child target,
      fork parentState (.ok ()) = .ok (child, target) ∧
        target.links.next (.head (.proc child)) = .sec 2 ∧
        (target.sections 2).end_ = 0 ∧
        (parentState.sections 0).end_ = 0x3000 ∧
        ¬ WalkEnds target child ∧
        ¬ ForkKeeps parentState target 0 child) ∧
      ∃ target,
        WellFormed parentState 0 ∧
          execve parentState 0 (some smallElf) (.ok ()) =
            .ok (0, target) ∧
          ¬ WalkEnds target 0 ∧ ¬ ExecKeeps target 0 := by
  constructor
  · have endless := not_walkEnds_fork
      (show fork parentState (.ok ()) = .ok (1, _) from rfl)
    exact ⟨1, _, rfl, by decide, by decide, by decide, endless,
      fun keeps => endless keeps.ends⟩
  · have called :
        ∃ target,
          execve parentState 0 (some smallElf) (.ok ()) =
            .ok (0, target) :=
      ⟨_, rfl⟩
    rcases called with ⟨target, called⟩
    have endless :=
      (execve_leaves ⟨_, parentState_listOf⟩ called).2
        ⟨smallElf, rfl, by decide⟩
    exact ⟨target, ⟨_, parentState_listOf⟩, called, endless,
      fun keeps => endless keeps.ends⟩

end FudanOS.Kernel.Sections
