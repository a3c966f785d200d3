import FudanOS.Kernel.ProcPages
import Mathlib.Algebra.BigOperators.Intervals

/-!
# Pages which a process leaves behind

In every run from the start of the first user process, no page has two places,
and for every process which `fork` has made there is a page which was
allocated for it and has no place at all.  Such a page can never be freed,
whatever the processes do.
-/

namespace FudanOS.Kernel.ProcMemory

open FudanOS.Aarch64.Mmu
open FudanOS.Library.Programs
open FudanOS.Library.Runs

/-! ## The invariant -/

/-- The pages which are held for a process number. -/
def owned : Option Proc → Multiset Nat
  | some proc => proc.pages
  | none => 0

/-- The lost pages of the processes which `fork` has made. -/
def lostPages (created : Nat) (lost : Nat → Nat) : Multiset Nat :=
  ∑ child ∈ Finset.Ico 2 created, {lost child}

/-- The pages which the processes hold, and those which are lost. -/
def State.others (state : State) (lost : Nat → Nat) : Multiset Nat :=
  (∑ proc ∈ Finset.range state.created, owned (state.procs proc)) +
    lostPages state.created lost

/-- The same without the pages of one process. -/
def State.rest (state : State) (lost : Nat → Nat) (proc : Nat) :
    Multiset Nat :=
  (∑ other ∈ (Finset.range state.created).erase proc,
      owned (state.procs other)) +
    lostPages state.created lost

/-- No page has two places, and every forked process has lost a page. -/
structure Leaks (lost : Nat → Nat) (state : State) : Prop where
  apart : Apart [] state.memory (state.others lost)
  booted : 2 ≤ state.created
  unborn : ∀ proc, state.created ≤ proc → state.procs proc = none
  tagged :
    ∀ child, 2 ≤ child → child < state.created →
      state.memory.allocatedFor (lost child) = some child

section Sums

variable
    {state target : State}
    {lost : Nat → Nat}
    {proc : Nat}

theorem others_eq_owned_add_rest
    (born : proc < state.created) :
    state.others lost = owned (state.procs proc) + state.rest lost proc := by
  unfold State.others State.rest
  rw [← Finset.add_sum_erase (Finset.range state.created)
    (fun other => owned (state.procs other)) (Finset.mem_range.mpr born)]
  exact add_assoc _ _ _

theorem rest_congr
    (created : target.created = state.created)
    (same :
      ∀ other, other ≠ proc →
        owned (target.procs other) = owned (state.procs other)) :
    target.rest lost proc = state.rest lost proc := by
  unfold State.rest
  rw [created]
  congr 1
  apply Finset.sum_congr rfl
  intro other member
  exact same other (Finset.ne_of_mem_erase member)

theorem mem_lostPages
    {created child : Nat}
    (forked : 2 ≤ child)
    (born : child < created) :
    lost child ∈ lostPages created lost := by
  unfold lostPages
  rw [← Finset.add_sum_erase _ _ (Finset.mem_Ico.mpr ⟨forked, born⟩)]
  exact Multiset.mem_add.mpr (Or.inl (Multiset.mem_singleton_self _))

end Sums

namespace Leaks

variable
    {state target : State}
    {lost : Nat → Nat}

theorem born
    {proc : Nat}
    {this : Proc}
    (leaks : Leaks lost state)
    (found : state.procs proc = some this) :
    proc < state.created := by
  by_contra outside
  rw [leaks.unborn proc (Nat.le_of_not_lt outside)] at found
  exact nomatch found

/-- The pages of one process are exchanged. -/
theorem replace
    {proc : Nat}
    (leaks : Leaks lost state)
    (born : proc < state.created)
    (moves :
      Moves [] (owned (state.procs proc)) (owned (target.procs proc))
        state.memory target.memory)
    (created : target.created = state.created)
    (same :
      ∀ other, other ≠ proc →
        owned (target.procs other) = owned (state.procs other))
    (unborn :
      ∀ other, state.created ≤ other → target.procs other = none) :
    Leaks lost target := by
  have before := leaks.apart
  rw [others_eq_owned_add_rest born] at before
  rcases moves.whole before with ⟨after, kept⟩
  constructor
  · rw [others_eq_owned_add_rest (created ▸ born), rest_congr created same]
    exact after
  · rw [created]
    exact leaks.booted
  · rw [created]
    exact unborn
  · rw [created]
    intro child forked childBorn
    rw [kept (lost child), leaks.tagged child forked childBorn]
    exact Multiset.mem_add.mpr (Or.inr (mem_lostPages forked childBorn))

/-- The page of a child is neither free nor held by anyone. -/
theorem not_returned
    {child : Nat}
    (leaks : Leaks lost state)
    (forked : 2 ≤ child)
    (born : child < state.created) :
    ¬ Returned state.memory child := by
  intro returned
  have free := returned (lost child) (leaks.tagged child forked born)
  have nodup := leaks.apart.nodup
  unfold Memory.total at nodup
  rw [Multiset.nodup_add] at nodup
  have isLost : lost child ∈ state.others lost :=
    Multiset.mem_add.mpr (Or.inr (mem_lostPages forked born))
  exact Multiset.disjoint_left.mp nodup.2.2 (Multiset.mem_coe.mpr free) isLost

end Leaks

/-! ## Steps -/

section Steps

variable
    {state target : State}
    {lost : Nat → Nat}

theorem running_eq_ok
    {proc : Nat}
    {this : Proc}
    (running : state.running proc = .ok this) :
    state.procs proc = some this := by
  unfold State.running at running
  cases found : state.procs proc with
  | none =>
      rw [found] at running
      exact nomatch running
  | some other =>
      rw [found] at running
      dsimp only at running
      by_cases zombie : other.zombie = true
      · rw [if_pos zombie] at running
        exact nomatch running
      · rw [if_neg zombie] at running
        rw [Except.ok.inj running]

/-- What a call on the page directory of a process has done. -/
theorem onPgdir_eq_ok
    {proc : Nat}
    {action : Pgdir → Action Pgdir}
    (called : state.onPgdir proc action = .ok target) :
    ∃ this pgdir memory,
      state.procs proc = some this ∧
        (action this.pgdir).run state.memory = .ok (pgdir, memory) ∧
          target =
            { state with memory := memory }.setProc proc
              (some { this with pgdir := pgdir }) := by
  unfold State.onPgdir at called
  cases running : state.running proc with
  | error stop =>
      rw [running] at called
      exact nomatch called
  | ok this =>
      rw [running] at called
      cases performed : (action this.pgdir).run state.memory with
      | error stop =>
          simp only [performed, bind, Except.bind] at called
          exact nomatch called
      | ok result =>
          simp only [performed, bind, Except.bind, pure, Except.pure,
            Except.ok.injEq] at called
          exact ⟨this, result.1, result.2, running_eq_ok running, performed,
            called.symm⟩

/-- A process other than the one which is set keeps what it has. -/
theorem procs_setProc_of_ne
    {proc other : Nat}
    (this : Option Proc)
    (different : other ≠ proc) :
    (state.setProc proc this).procs other = state.procs other := by
  unfold State.setProc
  dsimp only
  rw [Function.update_of_ne different]

theorem procs_setProc_self
    (proc : Nat)
    (this : Option Proc) :
    (state.setProc proc this).procs proc = this := by
  unfold State.setProc
  dsimp only
  rw [Function.update_self]

theorem Leaks.onPgdir
    {proc : Nat}
    {action : Pgdir → Action Pgdir}
    (leaks : Leaks lost state)
    (carries :
      ∀ pgdir, Carries [] (action pgdir) pgdir.root Pgdir.root)
    (called : state.onPgdir proc action = .ok target) :
    Leaks lost target := by
  rcases onPgdir_eq_ok called with
    ⟨this, pgdir, memory, found, performed, rfl⟩
  have born := leaks.born found
  have moves := ((carries this.pgdir) state.memory).of_run performed
  refine leaks.replace born ?_ rfl ?_ ?_
  · rw [procs_setProc_self, found]
    change Moves [] ({this.kstack} + this.pgdir.root)
      ({this.kstack} + pgdir.root) state.memory memory
    rw [add_comm, add_comm {this.kstack} pgdir.root]
    exact moves.frame {this.kstack}
  · intro other different
    rw [procs_setProc_of_ne _ different]
  · intro other beyond
    have different : other ≠ proc := by
      rintro rfl
      exact Nat.not_lt_of_le beyond born
    rw [procs_setProc_of_ne _ different]
    exact leaks.unborn other beyond

theorem owned_reparent (proc : Nat) (this : Option Proc) :
    owned (this.map (reparent proc)) = owned this := by
  cases this with
  | none => rfl
  | some child =>
      rw [Option.map_some]
      unfold reparent
      by_cases isChild : child.parent = some proc
      · rw [if_pos isChild]
        rfl
      · rw [if_neg isChild]

/-- What `exit` has done. -/
theorem exit_eq_ok
    {proc : Nat}
    (exited : exit state proc = .ok target) :
    ∃ this memory,
      state.procs proc = some this ∧
        (freePgdir this.pgdir).run state.memory = .ok ((), memory) ∧
          target.memory = memory ∧ target.created = state.created ∧
            target.procs proc =
              some
                { this with
                  pgdir := { this.pgdir with pt := none }
                  zombie := true } ∧
              ∀ other, other ≠ proc →
                target.procs other =
                  (state.procs other).map (reparent proc) := by
  unfold exit at exited
  cases running : state.running proc with
  | error stop =>
      rw [running] at exited
      exact nomatch exited
  | ok this =>
      rw [running] at exited
      cases performed : (freePgdir this.pgdir).run state.memory with
      | error stop =>
          simp only [performed, bind, Except.bind] at exited
          exact nomatch exited
      | ok result =>
          simp only [performed, bind, Except.bind, pure, Except.pure,
            Except.ok.injEq] at exited
          subst exited
          refine ⟨this, result.2, running_eq_ok running, performed, rfl, rfl,
            procs_setProc_self proc _, ?_⟩
          intro other different
          exact procs_setProc_of_ne _ different

theorem Leaks.exit
    {proc : Nat}
    (leaks : Leaks lost state)
    (exited : exit state proc = .ok target) :
    Leaks lost target := by
  rcases exit_eq_ok exited with
    ⟨this, memory, found, performed, rfl, created, gone, others⟩
  have born := leaks.born found
  have frees : Carries [] (freePgdir this.pgdir) this.pgdir.root fun _ => 0 :=
    carries_freePgdir this.pgdir
  have moves := (frees state.memory).of_run performed
  refine leaks.replace born ?_ created ?_ ?_
  · rw [gone, found]
    change Moves [] ({this.kstack} + this.pgdir.root) ({this.kstack} + 0)
      state.memory target.memory
    rw [add_comm, add_comm {this.kstack} (0 : Multiset Nat)]
    exact moves.frame {this.kstack}
  · intro other different
    rw [others other different, owned_reparent]
  · intro other beyond
    have different : other ≠ proc := by
      rintro rfl
      exact Nat.not_lt_of_le beyond born
    rw [others other different, leaks.unborn other beyond]
    rfl

/-- What `wait` has done. -/
theorem wait_eq_ok
    {parent child : Nat}
    (waited : wait state parent child = .ok target) :
    ∃ zombie memory,
      state.procs child = some zombie ∧ zombie.zombie = true ∧
        (kfreePage zombie.kstack).run state.memory = .ok ((), memory) ∧
          target = { state with memory := memory }.setProc child none := by
  unfold wait at waited
  cases running : state.running parent with
  | error stop =>
      rw [running] at waited
      exact nomatch waited
  | ok this =>
      rw [running] at waited
      cases found : state.procs child with
      | none =>
          simp only [found, bind, Except.bind] at waited
          exact nomatch waited
      | some zombie =>
          simp only [found, bind, Except.bind] at waited
          by_cases ready :
              zombie.zombie = true ∧ zombie.parent = some parent
          · rw [if_pos ready] at waited
            cases performed : (kfreePage zombie.kstack).run state.memory with
            | error stop =>
                simp only [performed] at waited
                exact nomatch waited
            | ok result =>
                simp only [performed, pure, Except.pure,
                  Except.ok.injEq] at waited
                exact ⟨zombie, result.2, rfl, ready.1, performed,
                  waited.symm⟩
          · rw [if_neg ready] at waited
            exact nomatch waited

theorem Leaks.wait
    {parent child : Nat}
    (leaks : Leaks lost state)
    (waited : wait state parent child = .ok target) :
    Leaks lost target := by
  rcases wait_eq_ok waited with
    ⟨zombie, memory, found, _, performed, rfl⟩
  have born := leaks.born found
  have frees : Carries [] (kfreePage zombie.kstack) {zombie.kstack}
      fun _ => 0 :=
    carries_kfreePage zombie.kstack
  have moves := (frees state.memory).of_run performed
  refine leaks.replace born ?_ rfl ?_ ?_
  · rw [procs_setProc_self, found]
    exact (moves.frame zombie.pgdir.root).forget
  · intro other different
    rw [procs_setProc_of_ne _ different]
  · intro other beyond
    have different : other ≠ child := by
      rintro rfl
      exact Nat.not_lt_of_le beyond born
    rw [procs_setProc_of_ne _ different]
    exact leaks.unborn other beyond

/-- What `fork` has done. -/
theorem fork_eq_ok
    {parent : Nat}
    (forked : fork state parent = .ok target) :
    ∃ parentDir child memory,
      (forkProc state.created parent parentDir).run state.memory =
          .ok (child, memory) ∧
        target.memory = memory ∧ target.created = state.created + 1 ∧
          target.procs =
            Function.update state.procs state.created (some child) := by
  unfold fork at forked
  cases running : state.running parent with
  | error stop =>
      rw [running] at forked
      exact nomatch forked
  | ok this =>
      rw [running] at forked
      cases performed :
          (forkProc state.created parent this.pgdir).run state.memory with
      | error stop =>
          simp only [performed, bind, Except.bind] at forked
          exact nomatch forked
      | ok result =>
          simp only [performed, bind, Except.bind, pure, Except.pure,
            Except.ok.injEq] at forked
          subst forked
          exact ⟨this.pgdir, result.1, result.2, performed, rfl, rfl, rfl⟩

/-- The pages of the processes when there is one more. -/
theorem others_fork
    {child : Proc}
    {page : Nat}
    (booted : 2 ≤ state.created)
    (created : target.created = state.created + 1)
    (procs :
      target.procs =
        Function.update state.procs state.created (some child)) :
    target.others (Function.update lost state.created page) =
      child.pages + ({page} + state.others lost) := by
  unfold State.others lostPages
  have olds :
      ∑ proc ∈ Finset.range state.created, owned (target.procs proc) =
        ∑ proc ∈ Finset.range state.created, owned (state.procs proc) := by
    apply Finset.sum_congr rfl
    intro proc member
    have different : proc ≠ state.created :=
      Nat.ne_of_lt (Finset.mem_range.mp member)
    rw [procs, Function.update_of_ne different]
  have losses :
      ∑ other ∈ Finset.Ico 2 state.created,
          ({Function.update lost state.created page other} : Multiset Nat) =
        ∑ other ∈ Finset.Ico 2 state.created, {lost other} := by
    apply Finset.sum_congr rfl
    intro other member
    have different : other ≠ state.created :=
      Nat.ne_of_lt (Finset.mem_Ico.mp member).2
    rw [Function.update_of_ne different]
  have newest : owned (target.procs state.created) = child.pages := by
    rw [procs, Function.update_self]
    rfl
  rw [created, Finset.sum_range_succ, Finset.sum_Ico_succ_top booted,
    Function.update_self, olds, losses, newest]
  ac_rfl

theorem Leaks.fork
    {parent : Nat}
    (leaks : Leaks lost state)
    (forked : fork state parent = .ok target) :
    ∃ page, Leaks (Function.update lost state.created page) target := by
  rcases fork_eq_ok forked with
    ⟨parentDir, child, memory, performed, rfl, created, procs⟩
  rcases (ensures_forkProc state.created parent parentDir
    state.memory).of_run performed with ⟨page, moves⟩
  rcases moves _ leaks.apart with ⟨apart, tagged, kept⟩
  refine ⟨page, ?_⟩
  constructor
  · rw [others_fork leaks.booted created procs]
    exact apart
  · rw [created]
    exact Nat.le_succ_of_le leaks.booted
  · rw [created]
    intro proc beyond
    have different : proc ≠ state.created := by
      rintro rfl
      exact Nat.not_succ_le_self _ beyond
    rw [procs, Function.update_of_ne different]
    exact leaks.unborn proc (Nat.le_of_succ_le beyond)
  · rw [created]
    intro other isForked born
    rcases Nat.lt_succ_iff_lt_or_eq.mp born with older | rfl
    · rw [Function.update_of_ne (Nat.ne_of_lt older), kept (lost other),
        leaks.tagged other isForked older]
      exact Multiset.mem_add.mpr (Or.inr (mem_lostPages isForked older))
    · rw [Function.update_self, tagged]

/-- The heap takes a page. -/
theorem Leaks.grow
    {page : Nat}
    {memory : Memory}
    (leaks : Leaks lost state)
    (performed : (kallocPage none).run state.memory = .ok (page, memory)) :
    Leaks lost { state with memory := memory } := by
  have takes : Carries [] (kallocPage none) 0 fun page => {page} :=
    carries_kallocPage none
  have moves : Moves [] 0 (0 + {page}) state.memory memory := by
    rw [zero_add]
    exact (takes state.memory).of_run performed
  have before := leaks.apart
  rw [← zero_add (state.others lost)] at before
  rcases moves.forget.whole before with ⟨after, kept⟩
  rw [zero_add] at after
  refine ⟨after, leaks.booted, leaks.unborn, ?_⟩
  intro child forked born
  have isLost : lost child ∈ state.others lost :=
    Multiset.mem_add.mpr (Or.inr (mem_lostPages forked born))
  exact (kept (lost child) isLost).trans (leaks.tagged child forked born)

/-- Every step keeps the lost pages, and `fork` adds one. -/
theorem Leaks.of_step
    {label : Label}
    (leaks : Leaks lost state)
    (taken : Takes step state label target) :
    ∃ lost, Leaks lost target := by
  cases label with
  | fork parent child =>
      unfold Takes step at taken
      dsimp only at taken
      by_cases next : child = state.created
      · rw [if_pos next] at taken
        rcases leaks.fork taken with ⟨page, leaks⟩
        exact ⟨_, leaks⟩
      · rw [if_neg next] at taken
        exact nomatch taken
  | pgfault proc addr =>
      have carries :
          ∀ pgdir, Carries [] (pgfaultHandler proc pgdir addr) pgdir.root
            Pgdir.root := by
        intro pgdir
        exact carries_pgfaultHandler proc pgdir addr
      exact ⟨lost, leaks.onPgdir carries taken⟩
  | sbrk proc size =>
      have carries :
          ∀ pgdir, Carries [] (sbrk proc pgdir size) pgdir.root
            Pgdir.root := by
        intro pgdir
        exact carries_sbrk proc pgdir size
      exact ⟨lost, leaks.onPgdir carries taken⟩
  | execve proc image =>
      have carries :
          ∀ pgdir, Carries [] (execve proc pgdir image) pgdir.root
            Pgdir.root := by
        intro pgdir
        exact carries_execve proc pgdir image
      exact ⟨lost, leaks.onPgdir carries taken⟩
  | exit proc => exact ⟨lost, leaks.exit taken⟩
  | wait parent child => exact ⟨lost, leaks.wait taken⟩
  | grow =>
      unfold Takes step at taken
      cases performed : (kallocPage none).run state.memory with
      | error stop =>
          simp only [performed, bind, Except.bind] at taken
          exact nomatch taken
      | ok result =>
          simp only [performed, bind, Except.bind, pure, Except.pure,
            Except.ok.injEq] at taken
          subst taken
          exact ⟨lost, leaks.grow performed⟩

end Steps

/-! ## The start -/

theorem carries_mapIcodePage
    (proc : Nat)
    (mapped : Pgdir × Word)
    (page : Nat) :
    Carries [] (mapIcodePage proc mapped page) ({page} + mapped.1.root)
      fun result => result.1.root := by
  apply (carries_mapPage proc mapped.1 mapped.2 page).bind
  intro pgdir
  exact Carries.pure rfl

/-- The pages of `icode` go into the tables of the first process. -/
theorem carries_mapIcodePages
    (proc : Nat)
    (mapped : Pgdir × Word)
    (icode : List Nat) :
    Carries [] (icode.foldlM (mapIcodePage proc) mapped)
      ((icode : Multiset Nat) + mapped.1.root)
      fun result => result.1.root := by
  induction icode generalizing mapped with
  | nil =>
      rw [Multiset.coe_nil, zero_add]
      exact Carries.pure rfl
  | cons page rest ih =>
      rw [List.foldlM_cons, ← Multiset.cons_coe, ← Multiset.singleton_add,
        add_right_comm]
      apply ((carries_mapIcodePage proc mapped page).frame rest).bind
      intro mapped
      rw [add_comm]
      exact ih mapped

theorem carries_mapIcode (proc : Nat) (pgdir : Pgdir) (icode : List Nat) :
    Carries [] (mapIcode proc pgdir icode)
      ((icode : Multiset Nat) + pgdir.root) Pgdir.root := by
  apply (carries_mapIcodePages proc (pgdir, 0x400000) icode).bind
  intro mapped
  exact Carries.pure rfl

theorem carries_bootProcs (icode : List Nat) :
    Carries [] (bootProcs icode) icode
      fun result => result.1.pages + result.2.pages := by
  apply ((carries_initProc rootProc).alongside icode).bind
  intro root
  apply ((carries_initProc 1).alongside (root.pages + icode)).bind
  intro first
  have mine :
      first.pages + (root.pages + (icode : Multiset Nat)) =
        (icode : Multiset Nat) + first.pgdir.root +
          (root.pages + {first.kstack}) := by
    unfold Proc.pages
    ac_rfl
  rw [mine]
  apply ((carries_mapIcode 1 first.pgdir icode).frame
    (root.pages + {first.kstack})).bind
  intro pgdir
  apply Carries.pure
  change pgdir.root + (root.pages + {first.kstack}) =
    root.pages + ({first.kstack} + pgdir.root)
  ac_rfl

/-- At the start no page has two places. -/
theorem leaks_boot
    {pages icode : List Nat}
    {start : State}
    (distinct : (pages ++ icode).Nodup)
    (booted : boot pages icode = .ok start) :
    Leaks id start := by
  unfold boot at booted
  cases performed : (bootProcs icode).run (freshMemory pages) with
  | error stop =>
      simp only [performed, bind, Except.bind] at booted
      exact nomatch booted
  | ok result =>
      rcases result with ⟨⟨root, first⟩, memory⟩
      simp only [performed, bind, Except.bind, pure, Except.pure,
        Except.ok.injEq] at booted
      subst booted
      have fresh :
          Apart [] (freshMemory pages) ((icode : Multiset Nat) + 0) := by
        constructor
        · rw [add_zero]
          exact distinct
        · intro pt index page _ found
          exact nomatch found
        · intro pt index second other page _ _ found
          exact nomatch found
      have moves :=
        ((carries_bootProcs icode) (freshMemory pages)).of_run performed
      have after := (moves.whole fresh).1
      refine ⟨?_, le_rfl, ?_, ?_⟩
      · unfold State.others lostPages
        rw [Finset.Ico_self, Finset.sum_empty, Finset.sum_range_succ,
          Finset.sum_range_one]
        exact after
      · intro proc beyond
        match proc, beyond with
        | proc + 2, _ => rfl
      · intro child forked born
        exact absurd forked (Nat.not_le_of_lt born)

/-! ## Runs -/

section Runs

variable
    {pages icode : List Nat}
    {start finish : State}
    {labels : List Label}

theorem leaks_of_run
    (distinct : (pages ++ icode).Nodup)
    (booted : boot pages icode = .ok start)
    (run : Run (Takes step) Allowed start labels finish) :
    ∃ lost, Leaks lost finish := by
  have initially : ∃ lost, Leaks lost start :=
    ⟨id, leaks_boot distinct booted⟩
  apply run.invariant initially
  rintro source label target ⟨lost, leaks⟩ _ taken
  exact leaks.of_step taken

/-- A process which was reaped does not return. -/
theorem reaped_of_step
    {state target : State}
    {label : Label}
    {proc : Nat}
    (taken : Takes step state label target)
    (born : proc < state.created)
    (reaped : state.procs proc = none) :
    target.procs proc = none := by
  have called :
      ∀ caller action, state.onPgdir caller action = .ok target →
        target.procs proc = none := by
    intro caller action called
    rcases onPgdir_eq_ok called with ⟨this, _, _, found, _, rfl⟩
    have different : proc ≠ caller := by
      rintro rfl
      exact nomatch reaped.symm.trans found
    rw [procs_setProc_of_ne _ different]
    exact reaped
  cases label with
  | fork parent child =>
      unfold Takes step at taken
      dsimp only at taken
      by_cases next : child = state.created
      · rw [if_pos next] at taken
        rcases fork_eq_ok taken with ⟨_, _, _, _, _, _, procs⟩
        rw [procs, Function.update_of_ne (Nat.ne_of_lt born)]
        exact reaped
      · rw [if_neg next] at taken
        exact nomatch taken
  | pgfault caller addr =>
      exact called caller (fun pgdir => pgfaultHandler caller pgdir addr) taken
  | sbrk caller size =>
      exact called caller (fun pgdir => sbrk caller pgdir size) taken
  | execve caller image =>
      exact called caller (fun pgdir => execve caller pgdir image) taken
  | exit caller =>
      rcases exit_eq_ok taken with ⟨this, _, found, _, _, _, _, others⟩
      have different : proc ≠ caller := by
        rintro rfl
        exact nomatch reaped.symm.trans found
      rw [others proc different, reaped]
      rfl
  | wait parent child =>
      rcases wait_eq_ok taken with ⟨zombie, _, found, _, _, rfl⟩
      have different : proc ≠ child := by
        rintro rfl
        exact nomatch reaped.symm.trans found
      rw [procs_setProc_of_ne _ different]
      exact reaped
  | grow =>
      unfold Takes step at taken
      cases performed : (kallocPage none).run state.memory with
      | error stop =>
          simp only [performed, bind, Except.bind] at taken
          exact nomatch taken
      | ok result =>
          simp only [performed, bind, Except.bind, pure, Except.pure,
            Except.ok.injEq] at taken
          subst taken
          exact reaped

/-- The number of created processes never falls. -/
theorem created_of_step
    {state target : State}
    {label : Label}
    (taken : Takes step state label target) :
    state.created ≤ target.created ∧
      ∀ parent child, label = .fork parent child →
        child = state.created ∧ target.created = state.created + 1 := by
  have called :
      ∀ caller action, state.onPgdir caller action = .ok target →
        state.created ≤ target.created := by
    intro caller action called
    rcases onPgdir_eq_ok called with ⟨_, _, _, _, _, rfl⟩
    exact le_rfl
  cases label with
  | fork parent child =>
      unfold Takes step at taken
      dsimp only at taken
      by_cases next : child = state.created
      · rw [if_pos next] at taken
        rcases fork_eq_ok taken with ⟨_, _, _, _, _, created, _⟩
        constructor
        · rw [created]
          exact Nat.le_succ _
        · intro _ _ same
          cases same
          exact ⟨next, created⟩
      · rw [if_neg next] at taken
        exact nomatch taken
  | pgfault caller addr =>
      refine ⟨?_, fun _ _ same => nomatch same⟩
      exact called caller (fun pgdir => pgfaultHandler caller pgdir addr) taken
  | sbrk caller size =>
      refine ⟨?_, fun _ _ same => nomatch same⟩
      exact called caller (fun pgdir => sbrk caller pgdir size) taken
  | execve caller image =>
      refine ⟨?_, fun _ _ same => nomatch same⟩
      exact called caller (fun pgdir => execve caller pgdir image) taken
  | exit caller =>
      refine ⟨?_, fun _ _ same => nomatch same⟩
      rcases exit_eq_ok taken with ⟨_, _, _, _, _, created, _⟩
      exact Nat.le_of_eq created.symm
  | wait parent child =>
      refine ⟨?_, fun _ _ same => nomatch same⟩
      rcases wait_eq_ok taken with ⟨_, _, _, _, _, rfl⟩
      exact le_rfl
  | grow =>
      refine ⟨?_, fun _ _ same => nomatch same⟩
      unfold Takes step at taken
      cases performed : (kallocPage none).run state.memory with
      | error stop =>
          simp only [performed, bind, Except.bind] at taken
          exact nomatch taken
      | ok result =>
          simp only [performed, bind, Except.bind, pure, Except.pure,
            Except.ok.injEq] at taken
          subst taken
          exact le_rfl

/-- A process which a run has forked has a number of its own. -/
theorem forked_of_run
    {parent child : Nat}
    (run : Run (Takes step) Allowed start labels finish)
    (booted : 2 ≤ start.created)
    (forked : .fork parent child ∈ labels) :
    2 ≤ child ∧ child < finish.created := by
  have grown : 2 ≤ finish.created ∧
      (.fork parent child ∈ labels → 2 ≤ child ∧ child < finish.created) := by
    clear forked
    induction run with
    | nil =>
        refine ⟨booted, ?_⟩
        intro member
        exact absurd member List.not_mem_nil
    | @snoc labels middle label target front _ taken ih =>
        rcases created_of_step taken with ⟨mono, forks⟩
        refine ⟨ih.1.trans mono, ?_⟩
        intro member
        rcases List.mem_append.mp member with before | here
        · rcases ih.2 before with ⟨low, high⟩
          exact ⟨low, high.trans_le mono⟩
        · have same : label = .fork parent child :=
            (List.mem_singleton.mp here).symm
          rcases forks parent child same with ⟨rfl, created⟩
          exact ⟨ih.1, created ▸ Nat.lt_succ_self _⟩
  exact grown.2 forked

/-- A process for which `wait` has returned is gone. -/
theorem reaped_of_run
    {waiter child : Nat}
    (distinct : (pages ++ icode).Nodup)
    (booted : boot pages icode = .ok start)
    (run : Run (Takes step) Allowed start labels finish)
    (waited : .wait waiter child ∈ labels) :
    child < finish.created ∧ finish.procs child = none := by
  induction run with
  | nil => exact absurd waited List.not_mem_nil
  | @snoc labels middle label target front _ taken ih =>
      rcases List.mem_append.mp waited with before | here
      · rcases ih before with ⟨born, reaped⟩
        exact ⟨born.trans_le (created_of_step taken).1,
          reaped_of_step taken born reaped⟩
      · have same : label = .wait waiter child :=
          (List.mem_singleton.mp here).symm
        subst same
        rcases leaks_of_run distinct booted front with ⟨lost, leaks⟩
        rcases wait_eq_ok taken with ⟨zombie, memory, found, _, _, rfl⟩
        exact ⟨leaks.born found, procs_setProc_self child none⟩

/--
After every run, the pages of a process which `fork` has made and for which
`wait` has returned are not all free.
-/
theorem memory_never_returned
    {parent waiter child : Nat}
    (distinct : (pages ++ icode).Nodup)
    (booted : boot pages icode = .ok start)
    (run : Run (Takes step) Allowed start labels finish)
    (forked : .fork parent child ∈ labels)
    (waited : .wait waiter child ∈ labels) :
    finish.procs child = none ∧ ¬ Returned finish.memory child := by
  have created : 2 ≤ start.created := (leaks_boot distinct booted).booted
  rcases forked_of_run run created forked with ⟨low, born⟩
  rcases leaks_of_run distinct booted run with ⟨lost, leaks⟩
  exact ⟨(reaped_of_run distinct booted run waited).2,
    leaks.not_returned low born⟩

end Runs

/-! ## A child which does nothing -/

/-- The first process makes a child, which exits, and waits for it. -/
def childExits : List Label :=
  [.fork 1 2, .exit 2, .wait 1 2]

/-- Two pages of the child are not free when it is gone. -/
theorem exists_childExits :
    ∃ start finish,
      boot (List.range' 100 20) [50] = .ok start ∧
        Run (Takes step) Allowed start childExits finish ∧
          finish.memory.allocatedFor 108 = some 2 ∧
            108 ∉ finish.memory.pages ∧
              leftPageCnt finish.memory = leftPageCnt start.memory - 2 := by
  cases booted : boot (List.range' 100 20) [50] with
  | error _ =>
      have failed :
          (boot (List.range' 100 20) [50]).toOption.isSome = true := by
        decide +kernel
      rw [booted] at failed
      exact nomatch failed
  | ok start =>
      have computed :
          ((boot (List.range' 100 20) [50]).toOption.bind fun start =>
            (executeChecked step
              (fun state label => decide (Allowed state label)) start
                childExits).map fun finish =>
                  decide
                    (finish.memory.allocatedFor 108 = some 2 ∧
                      108 ∉ finish.memory.pages ∧
                        leftPageCnt finish.memory =
                          leftPageCnt start.memory - 2)) =
            some true := by
        decide +kernel
      rw [booted] at computed
      rcases Option.map_eq_some_iff.mp computed with
        ⟨finish, executed, facts⟩
      have run : Run (Takes step) Allowed start childExits finish :=
        Run.of_executeChecked (fun _ _ => of_decide_eq_true) executed
      exact ⟨start, finish, rfl, run, of_decide_eq_true facts⟩

theorem memory_never_returned_child_exits :
    ∃ start finish,
      boot (List.range' 100 20) [50] = .ok start ∧
        Run (Takes step) Allowed start childExits finish ∧
          finish.procs 2 = none ∧ ¬ Returned finish.memory 2 := by
  rcases exists_childExits with ⟨start, finish, booted, run, _⟩
  have forked : Label.fork 1 2 ∈ childExits := List.mem_cons_self
  have waited : Label.wait 1 2 ∈ childExits := List.mem_of_mem_getLast? rfl
  exact ⟨start, finish, booted, run,
    memory_never_returned (by decide) booted run forked waited⟩

/-- The child is gone, but not all its pages are free. -/
theorem child_leaves_pages :
    ¬ ∀ pages icode start labels finish parent waiter child,
      (pages ++ icode).Nodup → boot pages icode = .ok start →
        Run (Takes step) Allowed start labels finish →
          .fork parent child ∈ labels → .wait waiter child ∈ labels →
            Returned finish.memory child := by
  intro claim
  rcases exists_childExits with
    ⟨start, finish, booted, run, tagged, notFree, _⟩
  have returned :=
    claim (List.range' 100 20) [50] start childExits finish 1 1 2 (by decide)
      booted run List.mem_cons_self (List.mem_of_mem_getLast? rfl)
  exact notFree (returned 108 tagged)

end FudanOS.Kernel.ProcMemory
