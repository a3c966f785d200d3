import FudanOS.Library.Runs
import Mathlib.Algebra.BigOperators.Fin
import Mathlib.Data.List.Count
import Mathlib.Data.List.Nodup
import Mathlib.Data.List.Range

/-!
# Counting pages

`kalloc_page`, `kfree_page` and `left_page_cnt` of `kernel/mem.c`, and the
increment of `vmmap`, one access to shared memory at a time.  The queue of
free pages is pushed and popped in one step.  A page is its number
`K2P(p) / PAGE_SIZE`, the index into `refpage`.
-/

namespace FudanOS.Kernel.Pages

open FudanOS.Library.Runs

/-! ## The allocator -/

/-- `PAGE_SIZE` -/
abbrev pageSize : Nat := 4096

/-- `KSPACE_MASK` -/
abbrev kspaceMask : Nat := 0xFFFF000000000000

/-- `PHYSTOP / PAGE_SIZE` -/
abbrev physPages : Nat := 0x80000000 / pageSize

/--
`K2P(page) / PAGE_SIZE`; the index which `NULL` gives is far outside of
`refpage`.
-/
def pageIndex : Option Nat → Nat
  | some page => page
  | none => (2 ^ 64 - kspaceMask) / pageSize

/-- Where a CPU is in the functions of the allocator. -/
inductive Phase where
  | idle
  /-- `kalloc_page` before it increments `kalloc_page_cnt` -/
  | alloc
  /-- `kalloc_page` before `fetch_from_queue` -/
  | allocFetch
  /-- `kalloc_page` before it increments the count of the page -/
  | allocRef (page : Option Nat)
  /-- `kfree_page` before it decrements the count of the page -/
  | free (page : Nat)
  /-- `kfree_page` before it compares the count with zero -/
  | freeTest (page : Nat)
  /-- `kfree_page` before it decrements `kalloc_page_cnt` -/
  | freeCount (page : Nat)
  /-- `kfree_page` before `add_to_queue` -/
  | freeAdd (page : Nat)
  deriving DecidableEq

structure State (count : Nat) where
  pages : List Nat
  refpage : Nat → Int
  kallocPageCnt : Int
  pagenum : Int
  cpus : Fin count → Phase
  /-- The references to a page which have an owner. -/
  owners : Nat → Nat

inductive Label (count : Nat) where
  | kallocPage (cpu : Fin count)
  | kfreePage (cpu : Fin count) (page : Nat)
  | vmmap (page : Nat)
  /-- The next access of a CPU. -/
  | advance (cpu : Fin count)

section Steps

variable {count : Nat}

/-- `kinit` when `zero_page` is `zero`; the pages after it become free. -/
def kinit (zero : Fin physPages) : State count where
  pages := (List.range' (zero + 1) (physPages - (zero + 1))).reverse
  refpage := fun page => if page = zero then 1 else 0
  kallocPageCnt := 0
  pagenum := (physPages - (zero + 1) : Nat)
  cpus := fun _ => .idle
  owners := fun _ => 0

/-- `left_page_cnt()`, an unsigned number of 64 bits -/
def leftPageCnt (state : State count) : Int :=
  (state.pagenum - state.kallocPageCnt) % 2 ^ 64

def State.setPhase (state : State count) (cpu : Fin count)
    (phase : Phase) : State count :=
  { state with cpus := Function.update state.cpus cpu phase }

/-- `refpage[page].count` is changed atomically. -/
def State.addRef (state : State count) (page : Nat) (change : Int) :
    State count :=
  { state with
    refpage :=
      Function.update state.refpage page (state.refpage page + change) }

/-- `kalloc_page` returns. -/
def State.give (state : State count) : Option Nat → State count
  | some page =>
      { state with
        owners :=
          Function.update state.owners page (state.owners page + 1) }
  | none => state

/-- The next access of a CPU, if it is in a function of the allocator. -/
def advance (state : State count) (cpu : Fin count) :
    Option (State count) :=
  match state.cpus cpu with
  | .idle => none
  | .alloc =>
      some
        ({ state with
          kallocPageCnt := state.kallocPageCnt + 1 }.setPhase cpu
            .allocFetch)
  | .allocFetch =>
      match state.pages with
      | [] => some (state.setPhase cpu (.allocRef none))
      | page :: rest =>
          some
            ({ state with pages := rest }.setPhase cpu
              (.allocRef (some page)))
  | .allocRef page =>
      some
        (((state.addRef (pageIndex page) 1).give page).setPhase cpu .idle)
  | .free page =>
      some ((state.addRef page (-1)).setPhase cpu (.freeTest page))
  | .freeTest page =>
      if state.refpage page = 0 then
        some (state.setPhase cpu (.freeCount page))
      else
        some (state.setPhase cpu .idle)
  | .freeCount page =>
      some
        ({ state with
          kallocPageCnt := state.kallocPageCnt - 1 }.setPhase cpu
            (.freeAdd page))
  | .freeAdd page =>
      some
        ({ state with pages := page :: state.pages }.setPhase cpu .idle)

def step (state : State count) (label : Label count) :
    Except Unit (State count) :=
  match label with
  | .kallocPage cpu =>
      if state.cpus cpu = .idle then
        .ok (state.setPhase cpu .alloc)
      else
        .error ()
  | .kfreePage cpu page =>
      if state.cpus cpu = .idle then
        .ok
          ({ state with
            owners :=
              Function.update state.owners page
                (state.owners page - 1) }.setPhase cpu (.free page))
      else
        .error ()
  | .vmmap page =>
      .ok ((state.addRef page 1).give (some page))
  | .advance cpu =>
      match advance state cpu with
      | some target => .ok target
      | none => .error ()

end Steps

/-! ## What the counts say -/

section Specification

variable {count : Nat}

/-- A call works on the page. -/
def Phase.Handles (page : Nat) : Phase → Prop
  | .allocRef other => other = some page
  | .free other => other = page
  | .freeTest other => other = page
  | .freeCount other => other = page
  | .freeAdd other => other = page
  | _ => False

/--
A page in the queue is there once and has no reference; a page without a
reference is in the queue, unless a call is working on it; and between calls
the pages are all counted.
-/
structure Conserved (zero : Fin physPages) (state : State count) : Prop
    where
  once : state.pages.Nodup
  free : ∀ page ∈ state.pages, state.refpage page = 0
  queued :
    ∀ page : Nat, zero < page → page < physPages →
      state.refpage page = 0 →
      (∀ cpu, ¬ (state.cpus cpu).Handles page) → page ∈ state.pages
  counted :
    (∀ cpu, state.cpus cpu = .idle) →
      state.pages.length + state.kallocPageCnt = state.pagenum ∧
        leftPageCnt state = state.pages.length

/-- A page is freed by its owners, and shared by an owner or from `kinit`. -/
def Allowed (zero : Fin physPages) (state : State count) :
    Label count → Prop
  | .kfreePage _ page => 0 < state.owners page
  | .vmmap page => 0 < state.owners page ∨ page = zero
  | _ => True

/--
The queue is not empty when a page is fetched, and the last reference is not
given up while another call is between its own decrement and its test.
-/
def Phase.Safe (state : State count) : Phase → Prop
  | .allocFetch => state.pages ≠ []
  | .free page =>
      state.refpage page = 1 → ∀ other, state.cpus other ≠ .freeTest page
  | _ => True

def Careful (state : State count) : Label count → Prop
  | .advance cpu => (state.cpus cpu).Safe state
  | _ => True

end Specification

/-! ## The ledger of a page -/

/-- The calls which have a reference and are about to give it up. -/
def Phase.frees (page : Nat) : Phase → Nat
  | .free other => if other = page then 1 else 0
  | _ => 0

/-- The calls which have given up a reference. -/
def Phase.tests (page : Nat) : Phase → Nat
  | .freeTest other => if other = page then 1 else 0
  | _ => 0

/-- The calls which have the page for themselves. -/
def Phase.holds (page : Nat) : Phase → Nat
  | .allocRef (some other) => if other = page then 1 else 0
  | .freeCount other => if other = page then 1 else 0
  | .freeAdd other => if other = page then 1 else 0
  | _ => 0

/-- The calls which have counted a page which is still in the queue. -/
def Phase.early : Phase → Nat
  | .allocFetch => 1
  | _ => 0

/-- The calls which no longer count a page outside of the queue. -/
def Phase.late : Phase → Nat
  | .freeAdd _ => 1
  | _ => 0

section Ledger

variable {count : Nat}

def tally (weight : Phase → Nat) (cpus : Fin count → Phase) : Nat :=
  ∑ cpu, weight (cpus cpu)

/-- What the state holds of a page. -/
structure Ledger where
  queued : Nat
  refs : Int
  owners : Nat
  frees : Nat
  tests : Nat
  holds : Nat

def ledger (state : State count) (page : Nat) : Ledger where
  queued := state.pages.count page
  refs := state.refpage page
  owners := state.owners page
  frees := tally (Phase.frees page) state.cpus
  tests := tally (Phase.tests page) state.cpus
  holds := tally (Phase.holds page) state.cpus

/-- The pages which the allocator knows, `zero_page` among them. -/
def known (zero : Fin physPages) (page : Nat) : Nat :=
  if zero ≤ page ∧ page < physPages then 1 else 0

/-- The reference of `kinit` to `zero_page`. -/
def fixed (zero : Fin physPages) (page : Nat) : Nat :=
  if page = zero then 1 else 0

/-- The ledger of a page is in order. -/
structure Ledger.Balanced (known fixed : Nat) (entry : Ledger) : Prop where
  refs : entry.refs = entry.owners + entry.frees + fixed
  unused :
    entry.refs = 0 → entry.queued + entry.holds + entry.tests = known
  used : 0 < entry.refs → entry.queued + entry.holds = 0
  strange :
    known = 0 →
      entry.queued + entry.owners + entry.frees + entry.tests +
        entry.holds + fixed = 0

structure Invariant (zero : Fin physPages) (state : State count) : Prop
    where
  balanced :
    ∀ page, (ledger state page).Balanced (known zero page)
      (fixed zero page)
  counted :
    state.pages.length + state.kallocPageCnt +
        tally Phase.late state.cpus =
      state.pagenum + tally Phase.early state.cpus
  total : state.pagenum = (physPages - (zero + 1) : Nat)
  fetched : ∀ cpu, state.cpus cpu ≠ .allocRef none

theorem known_le_one
    (zero : Fin physPages)
    (page : Nat) :
    known zero page ≤ 1 := by
  unfold known
  split_ifs <;> omega

theorem tally_update
    (weight : Phase → Nat)
    (cpus : Fin count → Phase)
    (cpu : Fin count)
    {old : Phase}
    (before : cpus cpu = old)
    (phase : Phase) :
    tally weight (Function.update cpus cpu phase) + weight old =
      tally weight cpus + weight phase := by
  subst before
  exact sum_update_add weight cpus cpu phase

end Ledger

/-! ## Every access keeps the ledgers in order -/

namespace Invariant

variable
    {count : Nat}
    {zero : Fin physPages}
    {state : State count}
    {cpu : Fin count}

/--
A CPU goes from one phase to another; what the access does to the ledgers and
to the counters is left to show.
-/
theorem setPhase
    (holds : Invariant zero state)
    {old phase : Phase}
    (before : state.cpus cpu = old)
    (fetched : phase ≠ .allocRef none)
    {target : State count}
    (pagenum : target.pagenum = state.pagenum)
    (cpus : target.cpus = Function.update state.cpus cpu phase)
    (counted :
      (target.pages.length : Int) + target.kallocPageCnt + phase.late +
          old.early =
        state.pages.length + state.kallocPageCnt + old.late +
          phase.early)
    (balanced :
      ∀ page frees tests holding,
        frees + old.frees page =
            tally (Phase.frees page) state.cpus + phase.frees page →
          tests + old.tests page =
              tally (Phase.tests page) state.cpus + phase.tests page →
            holding + old.holds page =
                tally (Phase.holds page) state.cpus + phase.holds page →
              (Ledger.mk (target.pages.count page) (target.refpage page)
                (target.owners page) frees tests holding).Balanced
                  (known zero page) (fixed zero page)) :
    Invariant zero target := by
  refine ⟨?_, ?_, pagenum.trans holds.total, ?_⟩
  · intro page
    unfold ledger
    rw [cpus]
    exact balanced page _ _ _
      (tally_update (Phase.frees page) state.cpus cpu before phase)
      (tally_update (Phase.tests page) state.cpus cpu before phase)
      (tally_update (Phase.holds page) state.cpus cpu before phase)
  · have early := tally_update Phase.early state.cpus cpu before phase
    have late := tally_update Phase.late state.cpus cpu before phase
    have balance := holds.counted
    rw [cpus, pagenum]
    omega
  · intro other
    rw [cpus]
    by_cases same : other = cpu
    · rw [same, Function.update_self]
      exact fetched
    · rw [Function.update_of_ne same]
      exact holds.fetched other

theorem alloc
    (holds : Invariant zero state)
    (before : state.cpus cpu = .alloc) :
    Invariant zero
      ({ state with
        kallocPageCnt := state.kallocPageCnt + 1 }.setPhase cpu
          .allocFetch) := by
  refine holds.setPhase before (by decide) rfl rfl ?_ ?_
  · simp only [State.setPhase, Phase.late, Phase.early]
    omega
  · intro page frees tests holding sameFrees sameTests sameHolds
    have entry := holds.balanced page
    simp only [Phase.frees, Phase.tests, Phase.holds,
      Nat.add_zero] at sameFrees sameTests sameHolds
    rw [sameFrees, sameTests, sameHolds]
    exact entry

theorem allocFetch
    (holds : Invariant zero state)
    (before : state.cpus cpu = .allocFetch)
    {page : Nat}
    {rest : List Nat}
    (queue : state.pages = page :: rest) :
    Invariant zero
      ({ state with pages := rest }.setPhase cpu
        (.allocRef (some page))) := by
  refine holds.setPhase before (by simp) rfl rfl ?_ ?_
  · simp only [State.setPhase, Phase.late, Phase.early, queue,
      List.length_cons]
    omega
  · intro other frees tests holding sameFrees sameTests sameHolds
    have entry := holds.balanced other
    simp only [ledger, queue, List.count_cons, beq_iff_eq] at entry
    rcases entry with ⟨refs, unused, used, strange⟩
    dsimp only at refs unused used strange
    simp only [Phase.frees, Phase.tests, Phase.holds,
      Nat.add_zero] at sameFrees sameTests sameHolds
    simp only [State.setPhase]
    refine ⟨?_, ?_, ?_, ?_⟩ <;> dsimp only <;> omega

theorem allocRef
    (holds : Invariant zero state)
    {page : Nat}
    (before : state.cpus cpu = .allocRef (some page)) :
    Invariant zero
      (((state.addRef page 1).give (some page)).setPhase cpu .idle) := by
  refine holds.setPhase before (by decide) rfl rfl ?_ ?_
  · simp only [State.setPhase, State.give, State.addRef, Phase.late,
      Phase.early]
  · intro other frees tests holding sameFrees sameTests sameHolds
    rcases holds.balanced other with ⟨refs, unused, used, strange⟩
    dsimp only [ledger] at refs unused used strange
    simp only [Phase.frees, Phase.tests, Phase.holds,
      Nat.add_zero] at sameFrees sameTests sameHolds
    dsimp only [State.setPhase, State.give, State.addRef]
    by_cases same : page = other
    · subst same
      rw [if_pos rfl] at sameHolds
      rw [Function.update_self, Function.update_self]
      have knownOnce := known_le_one zero page
      refine ⟨?_, ?_, ?_, ?_⟩ <;> dsimp only <;> omega
    · rw [if_neg same] at sameHolds
      rw [Function.update_of_ne (Ne.symm same),
        Function.update_of_ne (Ne.symm same)]
      refine ⟨?_, ?_, ?_, ?_⟩ <;> dsimp only <;> omega

/-- Nobody is between a decrement and a test of the page. -/
theorem tally_tests_eq_zero
    {page : Nat}
    (alone : ∀ other, state.cpus other ≠ .freeTest page) :
    tally (Phase.tests page) state.cpus = 0 := by
  apply Finset.sum_eq_zero
  intro other _
  have apart := alone other
  cases phase : state.cpus other with
  | freeTest found =>
      apply if_neg
      rintro rfl
      exact apart phase
  | idle => rfl
  | alloc => rfl
  | allocFetch => rfl
  | allocRef _ => rfl
  | free _ => rfl
  | freeCount _ => rfl
  | freeAdd _ => rfl

theorem free
    (holds : Invariant zero state)
    {page : Nat}
    (before : state.cpus cpu = .free page)
    (alone :
      state.refpage page = 1 →
        ∀ other, state.cpus other ≠ .freeTest page) :
    Invariant zero
      ((state.addRef page (-1)).setPhase cpu (.freeTest page)) := by
  refine holds.setPhase before (by simp) rfl rfl ?_ ?_
  · simp only [State.setPhase, State.addRef, Phase.late, Phase.early]
  · intro other frees tests holding sameFrees sameTests sameHolds
    rcases holds.balanced other with ⟨refs, unused, used, strange⟩
    dsimp only [ledger] at refs unused used strange
    simp only [Phase.frees, Phase.tests, Phase.holds,
      Nat.add_zero] at sameFrees sameTests sameHolds
    dsimp only [State.setPhase, State.addRef]
    by_cases same : page = other
    · subst same
      rw [if_pos rfl] at sameFrees sameTests
      rw [Function.update_self]
      have noTest :
          state.refpage page = 1 →
            tally (Phase.tests page) state.cpus = 0 :=
        fun last => tally_tests_eq_zero (alone last)
      have knownOnce := known_le_one zero page
      refine ⟨?_, ?_, ?_, ?_⟩ <;> dsimp only <;> omega
    · rw [if_neg same] at sameFrees sameTests
      rw [Function.update_of_ne (Ne.symm same)]
      refine ⟨?_, ?_, ?_, ?_⟩ <;> dsimp only <;> omega

theorem freeTest_zero
    (holds : Invariant zero state)
    {page : Nat}
    (before : state.cpus cpu = .freeTest page)
    (last : state.refpage page = 0) :
    Invariant zero (state.setPhase cpu (.freeCount page)) := by
  refine holds.setPhase before (by simp) rfl rfl ?_ ?_
  · simp only [State.setPhase, Phase.late, Phase.early]
  · intro other frees tests holding sameFrees sameTests sameHolds
    rcases holds.balanced other with ⟨refs, unused, used, strange⟩
    dsimp only [ledger] at refs unused used strange
    simp only [Phase.frees, Phase.tests, Phase.holds,
      Nat.add_zero] at sameFrees sameTests sameHolds
    dsimp only [State.setPhase]
    by_cases same : page = other
    · subst same
      rw [if_pos rfl] at sameTests sameHolds
      refine ⟨?_, ?_, ?_, ?_⟩ <;> dsimp only <;> omega
    · rw [if_neg same] at sameTests sameHolds
      refine ⟨?_, ?_, ?_, ?_⟩ <;> dsimp only <;> omega

theorem freeTest_shared
    (holds : Invariant zero state)
    {page : Nat}
    (before : state.cpus cpu = .freeTest page)
    (shared : state.refpage page ≠ 0) :
    Invariant zero (state.setPhase cpu .idle) := by
  refine holds.setPhase before (by decide) rfl rfl ?_ ?_
  · simp only [State.setPhase, Phase.late, Phase.early]
  · intro other frees tests holding sameFrees sameTests sameHolds
    rcases holds.balanced other with ⟨refs, unused, used, strange⟩
    dsimp only [ledger] at refs unused used strange
    simp only [Phase.frees, Phase.tests, Phase.holds,
      Nat.add_zero] at sameFrees sameTests sameHolds
    dsimp only [State.setPhase]
    by_cases same : page = other
    · subst same
      rw [if_pos rfl] at sameTests
      refine ⟨?_, ?_, ?_, ?_⟩ <;> dsimp only <;> omega
    · rw [if_neg same] at sameTests
      refine ⟨?_, ?_, ?_, ?_⟩ <;> dsimp only <;> omega

theorem freeCount
    (holds : Invariant zero state)
    {page : Nat}
    (before : state.cpus cpu = .freeCount page) :
    Invariant zero
      ({ state with
        kallocPageCnt := state.kallocPageCnt - 1 }.setPhase cpu
          (.freeAdd page)) := by
  refine holds.setPhase before (by simp) rfl rfl ?_ ?_
  · simp only [State.setPhase, Phase.late, Phase.early]
    omega
  · intro other frees tests holding sameFrees sameTests sameHolds
    have entry := holds.balanced other
    simp only [Phase.frees, Phase.tests, Phase.holds,
      Nat.add_zero] at sameFrees sameTests sameHolds
    have sameHolding := Nat.add_right_cancel sameHolds
    rw [sameFrees, sameTests, sameHolding]
    exact entry

theorem freeAdd
    (holds : Invariant zero state)
    {page : Nat}
    (before : state.cpus cpu = .freeAdd page) :
    Invariant zero
      ({ state with pages := page :: state.pages }.setPhase cpu
        .idle) := by
  refine holds.setPhase before (by decide) rfl rfl ?_ ?_
  · simp only [State.setPhase, Phase.late, Phase.early, List.length_cons]
    omega
  · intro other frees tests holding sameFrees sameTests sameHolds
    rcases holds.balanced other with ⟨refs, unused, used, strange⟩
    dsimp only [ledger] at refs unused used strange
    simp only [Phase.frees, Phase.tests, Phase.holds,
      Nat.add_zero] at sameFrees sameTests sameHolds
    simp only [State.setPhase, List.count_cons, beq_iff_eq]
    refine ⟨?_, ?_, ?_, ?_⟩ <;> dsimp only <;> omega

/-- `kfree_page` takes the reference of an owner. -/
theorem kfreePage
    (holds : Invariant zero state)
    (before : state.cpus cpu = .idle)
    {page : Nat}
    (owned : 0 < state.owners page) :
    Invariant zero
      ({ state with
        owners :=
          Function.update state.owners page
            (state.owners page - 1) }.setPhase cpu (.free page)) := by
  refine holds.setPhase before (by simp) rfl rfl ?_ ?_
  · simp only [State.setPhase, Phase.late, Phase.early]
  · intro other frees tests holding sameFrees sameTests sameHolds
    rcases holds.balanced other with ⟨refs, unused, used, strange⟩
    dsimp only [ledger] at refs unused used strange
    simp only [Phase.frees, Phase.tests, Phase.holds,
      Nat.add_zero] at sameFrees sameTests sameHolds
    dsimp only [State.setPhase]
    by_cases same : page = other
    · subst same
      rw [if_pos rfl] at sameFrees
      rw [Function.update_self]
      refine ⟨?_, ?_, ?_, ?_⟩ <;> dsimp only <;> omega
    · rw [if_neg same] at sameFrees
      rw [Function.update_of_ne (Ne.symm same)]
      refine ⟨?_, ?_, ?_, ?_⟩ <;> dsimp only <;> omega

theorem kallocPage
    (holds : Invariant zero state)
    (before : state.cpus cpu = .idle) :
    Invariant zero (state.setPhase cpu .alloc) := by
  refine holds.setPhase before (by decide) rfl rfl ?_ ?_
  · simp only [State.setPhase, Phase.late, Phase.early]
  · intro page frees tests holding sameFrees sameTests sameHolds
    have entry := holds.balanced page
    simp only [Phase.frees, Phase.tests, Phase.holds,
      Nat.add_zero] at sameFrees sameTests sameHolds
    rw [sameFrees, sameTests, sameHolds]
    exact entry

/-- `vmmap` adds an owner to a page which has a reference already. -/
theorem vmmap
    (holds : Invariant zero state)
    {page : Nat}
    (shared : 0 < state.owners page ∨ page = zero) :
    Invariant zero ((state.addRef page 1).give (some page)) := by
  refine ⟨?_, holds.counted, holds.total, holds.fetched⟩
  intro other
  rcases holds.balanced other with ⟨refs, unused, used, strange⟩
  dsimp only [ledger] at refs unused used strange
  dsimp only [ledger, State.give, State.addRef]
  by_cases same : page = other
  · subst same
    have positive : 0 < state.owners page + fixed zero page := by
      rcases shared with owned | isZero
      · omega
      · unfold fixed
        rw [if_pos isZero]
        omega
    rw [Function.update_self, Function.update_self]
    refine ⟨?_, ?_, ?_, ?_⟩ <;> dsimp only <;> omega
  · rw [Function.update_of_ne (Ne.symm same),
      Function.update_of_ne (Ne.symm same)]
    exact ⟨refs, unused, used, strange⟩

/-- One access of a CPU. -/
theorem advance
    (holds : Invariant zero state)
    (safe : (state.cpus cpu).Safe state)
    {target : State count}
    (taken : advance state cpu = some target) :
    Invariant zero target := by
  unfold Pages.advance at taken
  cases phase : state.cpus cpu with
  | idle =>
      rw [phase] at taken
      cases taken
  | alloc =>
      rw [phase] at taken
      cases taken
      exact holds.alloc phase
  | allocFetch =>
      rw [phase] at taken safe
      dsimp only at taken
      cases queue : state.pages with
      | nil => exact absurd queue safe
      | cons page rest =>
          rw [queue] at taken
          cases taken
          exact holds.allocFetch phase queue
  | allocRef page =>
      cases page with
      | none => exact absurd phase (holds.fetched cpu)
      | some page =>
          rw [phase] at taken
          cases taken
          exact holds.allocRef phase
  | free page =>
      rw [phase] at taken safe
      cases taken
      exact holds.free phase safe
  | freeTest page =>
      rw [phase] at taken
      dsimp only at taken
      split_ifs at taken with last
      · cases taken
        exact holds.freeTest_zero phase last
      · cases taken
        exact holds.freeTest_shared phase last
  | freeCount page =>
      rw [phase] at taken
      cases taken
      exact holds.freeCount phase
  | freeAdd page =>
      rw [phase] at taken
      cases taken
      exact holds.freeAdd phase

theorem of_step
    (holds : Invariant zero state)
    {label : Label count}
    (allowed : Allowed zero state label)
    (careful : Careful state label)
    {target : State count}
    (taken : step state label = .ok target) :
    Invariant zero target := by
  unfold step at taken
  cases label with
  | kallocPage cpu =>
      dsimp only at taken
      split_ifs at taken with before
      cases taken
      exact holds.kallocPage before
  | kfreePage cpu page =>
      dsimp only at taken
      split_ifs at taken with before
      cases taken
      exact holds.kfreePage before allowed
  | vmmap page =>
      cases taken
      exact holds.vmmap allowed
  | advance cpu =>
      dsimp only at taken
      cases moved : Pages.advance state cpu with
      | none =>
          rw [moved] at taken
          cases taken
      | some next =>
          rw [moved] at taken
          cases taken
          exact holds.advance careful moved

theorem of_kinit : Invariant zero (kinit zero : State count) := by
  have none :
      ∀ weight : Phase → Nat, weight .idle = 0 →
        tally weight (fun _ : Fin count => Phase.idle) = 0 := by
    intro weight nothing
    apply Finset.sum_eq_zero
    intro cpu _
    exact nothing
  refine ⟨?_, ?_, rfl, fun cpu => by simp [kinit]⟩
  · intro page
    have nodup :
        (kinit zero : State count).pages.Nodup := by
      simp only [kinit, List.nodup_reverse]
      exact List.nodup_range'
    have members :
        page ∈ (kinit zero : State count).pages ↔
          zero < page ∧ page < physPages := by
      have below := zero.isLt
      simp only [kinit, List.mem_reverse, List.mem_range'_1]
      omega
    have counts :
        (kinit zero : State count).pages.count page =
          if zero < page ∧ page < physPages then 1 else 0 := by
      split_ifs with inside
      · exact List.count_eq_one_of_mem nodup (members.mpr inside)
      · exact List.count_eq_zero_of_not_mem fun member =>
          inside (members.mp member)
    have frees := none (Phase.frees page) rfl
    have tests := none (Phase.tests page) rfl
    have holding := none (Phase.holds page) rfl
    have below := zero.isLt
    unfold ledger
    rw [counts]
    dsimp only [kinit]
    rw [frees, tests, holding]
    unfold known fixed
    refine ⟨?_, ?_, ?_, ?_⟩
    · dsimp only
      split_ifs <;> rfl
    · dsimp only
      intro unused
      split_ifs at unused ⊢ <;> omega
    · dsimp only
      intro used
      split_ifs at used ⊢ <;> omega
    · dsimp only
      intro strange
      split_ifs at strange ⊢ <;> omega
  · have early := none Phase.early rfl
    have late := none Phase.late rfl
    dsimp only [kinit]
    rw [early, late, List.length_reverse, List.length_range']
    omega

/-- What the ledgers say about the queue. -/
theorem conserved
    (holds : Invariant zero state) :
    Conserved zero state := by
  have once : state.pages.Nodup := by
    rw [List.nodup_iff_count_le_one]
    intro page
    rcases holds.balanced page with ⟨refs, unused, used, -⟩
    dsimp only [ledger] at refs unused used
    have knownOnce := known_le_one zero page
    omega
  refine ⟨once, ?_, ?_, ?_⟩
  · intro page member
    rcases holds.balanced page with ⟨refs, unused, used, -⟩
    dsimp only [ledger] at refs unused used
    have present := List.count_pos_iff.mpr member
    omega
  · intro page after below free alone
    rcases holds.balanced page with ⟨-, unused, -, -⟩
    dsimp only [ledger] at unused
    have isKnown : known zero page = 1 := by
      unfold known
      rw [if_pos ⟨Nat.le_of_lt after, below⟩]
    have nobody :
        ∀ weight : Phase → Nat,
          (∀ phase, weight phase ≠ 0 → phase.Handles page) →
            tally weight state.cpus = 0 := by
      intro weight handles
      apply Finset.sum_eq_zero
      intro cpu _
      by_contra positive
      exact alone cpu (handles _ positive)
    have tests : tally (Phase.tests page) state.cpus = 0 := by
      apply nobody
      intro phase positive
      cases phase <;> simp_all [Phase.tests, Phase.Handles]
    have holding : tally (Phase.holds page) state.cpus = 0 := by
      apply nobody
      intro phase positive
      cases phase with
      | allocRef found =>
          cases found <;> simp_all [Phase.holds, Phase.Handles]
      | freeCount found => simp_all [Phase.holds, Phase.Handles]
      | freeAdd found => simp_all [Phase.holds, Phase.Handles]
      | idle => exact absurd rfl positive
      | alloc => exact absurd rfl positive
      | allocFetch => exact absurd rfl positive
      | free found => exact absurd rfl positive
      | freeTest found => exact absurd rfl positive
    have present := unused free
    apply List.count_pos_iff.mp
    omega
  · intro quiet
    have none :
        ∀ weight : Phase → Nat, weight .idle = 0 →
          tally weight state.cpus = 0 := by
      intro weight nothing
      apply Finset.sum_eq_zero
      intro cpu _
      rw [quiet cpu]
      exact nothing
    have early := none Phase.early rfl
    have late := none Phase.late rfl
    have balance := holds.counted
    have sum :
        state.pages.length + state.kallocPageCnt = state.pagenum := by
      omega
    have inside : state.pages ⊆ List.range physPages := by
      intro page member
      rcases holds.balanced page with ⟨-, -, -, strange⟩
      dsimp only [ledger] at strange
      have present := List.count_pos_iff.mpr member
      rw [List.mem_range]
      by_contra outside
      have unknown : known zero page = 0 := by
        unfold known
        apply if_neg
        rintro ⟨-, below⟩
        exact outside below
      have nothing := strange unknown
      omega
    have bounded := (List.subperm_of_subset once inside).length_le
    rw [List.length_range] at bounded
    refine ⟨sum, ?_⟩
    unfold leftPageCnt
    have same :
        state.pagenum - state.kallocPageCnt = state.pages.length := by
      omega
    rw [same]
    apply Int.emod_eq_of_lt
    · omega
    · have small : physPages < 2 ^ 64 := by decide
      omega

end Invariant

/--
As long as no page is fetched from an empty queue, and no last reference is
given up while another call is about to test the count, pages are conserved.
-/
theorem pages_conserved
    {count : Nat}
    {zero : Fin physPages}
    {labels : List (Label count)}
    {finish : State count}
    (run :
      Run (Takes step)
        (fun state label => Allowed zero state label ∧ Careful state label)
        (kinit zero) labels finish) :
    Conserved zero finish := by
  have holds : Invariant zero finish := by
    refine run.invariant Invariant.of_kinit ?_
    intro source label target holds permitted taken
    exact holds.of_step permitted.1 permitted.2 taken
  exact holds.conserved

/-! ## Two pages and two CPUs -/

section Example

variable {count : Nat}

instance (zero : Fin physPages) (state : State count)
    (label : Label count) : Decidable (Allowed zero state label) :=
  match label with
  | .kallocPage _ => inferInstanceAs (Decidable True)
  | .kfreePage _ _ => inferInstanceAs (Decidable (_ < _))
  | .vmmap _ => inferInstanceAs (Decidable (_ ∨ _))
  | .advance _ => inferInstanceAs (Decidable True)

instance (state : State count) (phase : Phase) :
    Decidable (phase.Safe state) :=
  match phase with
  | .allocFetch => inferInstanceAs (Decidable (_ ≠ _))
  | .free _ => inferInstanceAs (Decidable (_ → ∀ _, _ ≠ _))
  | .idle => inferInstanceAs (Decidable True)
  | .alloc => inferInstanceAs (Decidable True)
  | .allocRef _ => inferInstanceAs (Decidable True)
  | .freeTest _ => inferInstanceAs (Decidable True)
  | .freeCount _ => inferInstanceAs (Decidable True)
  | .freeAdd _ => inferInstanceAs (Decidable True)

instance (state : State count) (label : Label count) :
    Decidable (Careful state label) :=
  match label with
  | .advance cpu =>
      inferInstanceAs (Decidable ((state.cpus cpu).Safe state))
  | .kallocPage _ => inferInstanceAs (Decidable True)
  | .kfreePage _ _ => inferInstanceAs (Decidable True)
  | .vmmap _ => inferInstanceAs (Decidable True)

end Example

/-- The last page but two. -/
def topZero : Fin physPages := ⟨524285, by decide⟩

/-- A whole call of `kalloc_page`. -/
def allocCall (cpu : Fin 2) : List (Label 2) :=
  [.kallocPage cpu, .advance cpu, .advance cpu, .advance cpu]

/-- CPU 0 allocates the last page, and it is mapped a second time. -/
def sharedPage : List (Label 2) :=
  allocCall 0 ++ [.vmmap 524287]

/-- Both owners free the page, one after the other. -/
def freedInTurn : List (Label 2) :=
  sharedPage ++
    [.kfreePage 0 524287, .advance 0, .advance 0, .kfreePage 1 524287,
      .advance 1, .advance 1, .advance 1, .advance 1]

/-- Both owners decrement the count before either of them tests it. -/
def freedAtOnce : List (Label 2) :=
  sharedPage ++
    [.kfreePage 0 524287, .kfreePage 1 524287, .advance 0, .advance 1,
      .advance 0, .advance 1, .advance 0, .advance 1, .advance 0,
      .advance 1]

/-- There are two pages, and a third one is allocated. -/
def exhausted : List (Label 2) :=
  allocCall 0 ++ allocCall 0 ++ allocCall 0

theorem pages_conserved_shared :
    ∃ finish,
      Run (Takes step)
          (fun state label =>
            Allowed topZero state label ∧ Careful state label)
          (kinit topZero) freedInTurn finish ∧
        finish.pages = [524287, 524286] ∧ Conserved topZero finish := by
  have computed :
      ((executeChecked step
        (fun state label =>
          decide (Allowed topZero state label ∧ Careful state label))
        (kinit topZero) freedInTurn).map State.pages) =
        some [524287, 524286] := by
    decide +kernel
  rcases Option.map_eq_some_iff.mp computed with ⟨finish, executed, pages⟩
  have run :
      Run (Takes step)
        (fun state label =>
          Allowed topZero state label ∧ Careful state label)
        (kinit topZero) freedInTurn finish :=
    Run.of_executeChecked (fun _ _ => of_decide_eq_true) executed
  exact ⟨finish, run, pages, pages_conserved run⟩

/--
A page which two owners free at once is in the queue twice, and after a
`kalloc_page` of an empty queue more pages are counted than there are.
-/
theorem pages_not_conserved :
    (∃ finish,
      Run (Takes step) (Allowed topZero) (kinit topZero) freedAtOnce
          finish ∧
        finish.pages = [524287, 524287, 524286] ∧
        ¬ Conserved topZero finish) ∧
      ∃ finish,
        Run (Takes step) (Allowed topZero) (kinit topZero) exhausted
            finish ∧
          (∀ cpu, finish.cpus cpu = .idle) ∧
          finish.pages = [] ∧ finish.kallocPageCnt = 3 ∧
          finish.pagenum = 2 ∧ ¬ Conserved topZero finish := by
  constructor
  · have computed :
        ((executeChecked step
          (fun state label => decide (Allowed topZero state label))
          (kinit topZero) freedAtOnce).map State.pages) =
          some [524287, 524287, 524286] := by
      decide +kernel
    rcases Option.map_eq_some_iff.mp computed with
      ⟨finish, executed, pages⟩
    have run :
        Run (Takes step) (Allowed topZero) (kinit topZero) freedAtOnce
          finish :=
      Run.of_executeChecked (fun _ _ => of_decide_eq_true) executed
    refine ⟨finish, run, pages, ?_⟩
    intro conserved
    have once := conserved.once
    rw [pages] at once
    exact absurd once (by decide)
  · have computed :
        ((executeChecked step
          (fun state label => decide (Allowed topZero state label))
          (kinit topZero) exhausted).map fun state =>
            (decide (∀ cpu, state.cpus cpu = .idle), state.pages,
              state.kallocPageCnt, state.pagenum)) =
          some (true, [], 3, 2) := by
      decide +kernel
    rcases Option.map_eq_some_iff.mp computed with
      ⟨finish, executed, values⟩
    have run :
        Run (Takes step) (Allowed topZero) (kinit topZero) exhausted
          finish :=
      Run.of_executeChecked (fun _ _ => of_decide_eq_true) executed
    simp only [Prod.mk.injEq, decide_eq_true_eq] at values
    rcases values with ⟨quiet, pages, counted, total⟩
    refine ⟨finish, run, quiet, pages, counted, total, ?_⟩
    intro conserved
    have balance := (conserved.counted quiet).1
    rw [pages, counted, total] at balance
    exact absurd balance (by decide)

end FudanOS.Kernel.Pages
