import FudanOS.Kernel.FileRefs
import FudanOS.Fs.InodeRuns

/-!
# Reference counts over runs

Processes call `openat`, `dup`, `close`, `pipe2`, `chdir`, `fork`, `execve`
and `exit`, one call at a time.  `exit` leaves the descriptors and the working
directory of the process as they are, so the references of a process which has
exited stay counted.
-/

namespace FudanOS.Kernel.FileRuns

open FudanOS.Library.Programs
open FudanOS.Library.Runs
open FudanOS.Fs.Defines
open FudanOS.Fs.BlockBitmap
open FudanOS.Fs.InodeLayout
open FudanOS.Fs.InodeLayer
open FudanOS.Fs.Directory
open FudanOS.Fs.InodeTable
open FudanOS.Fs.InodeRuns
open FudanOS.Fs.Names
open FudanOS.Fs.InodeRefs
open FudanOS.Kernel.SysFile
open FudanOS.Kernel.FileRefs

/-! ## The first process -/

/-- The kernel before `init_inodes`. -/
def unbooted (store : Store) (nodes : Nat → Inode) : System where
  table := { store := store, nodes := nodes, head := [] }
  files := fun _ => ⟨.none, 0, false, false, 0, 0⟩
  pipes := fun _ => ⟨false, false⟩
  allocated := []
  procs := fun _ => { openfile := fun _ => none, cwd := 0 }
  live := ∅

/--
`init_inodes`, and the working directory of the first process, which
`kernel_entry` sets to `namei("/", &ctx)`.  The result is `inodes.root`.
-/
def boot (sblock : SuperBlock) (env : Env) (first : Nat) :
    KernelProgram Nat := do
  let root ← onTable (Inodes.get sblock env rootInodeNo)
  onTable (beginOp env)
  -- The path is absolute, so the working directory is not looked at.
  match ← onTable (namei sblock env root [slash]) with
  | none => throw .null
  | some cwd => do
      modify fun system =>
        { system with
          procs :=
            Function.update system.procs first
              { system.procs first with cwd := cwd }
          live := insert first system.live }
      return root

/-- Nothing is spare. -/
def noSpare : Spare := ⟨fun _ => 0, fun _ => 0⟩

/-- The state from which processes make calls. -/
def Booted (sblock : SuperBlock) (root : Nat) (system : System) : Prop :=
  ∃ store nodes env first,
    (boot sblock env first).run (unbooted store nodes) =
      .ok (root, system)

theorem ensures_boot
    {sblock : SuperBlock}
    {env : Env}
    {first : Nat}
    (store : Store)
    (nodes : Nat → Inode) :
    Ensures (fun _ => True) (boot sblock env first)
      (unbooted store nodes) fun root system =>
        Kept root noSpare system := by
  have nothing :
      Counted (fun _ => 0) (unbooted store nodes).table :=
    ⟨fun address member => absurd member List.not_mem_nil,
      fun address positive => absurd positive (Nat.lt_irrefl 0)⟩
  unfold boot
  rw [ensures_bind]
  refine ensures_onTable ((counts_get _ nothing).mono ?_)
  intro root table counted
  rw [ensures_bind]
  refine ensures_onTable ((counts_beginOp _ counted).mono ?_)
  intro _ middle begun
  rw [ensures_bind]
  refine ensures_onTable
    ((counts_namei (show 0 < plus _ root root by simp) _ begun).mono ?_)
  intro found target located
  cases found with
  | none => exact trivial
  | some cwd =>
      dsimp only
      rw [ensures_bind, ensures_modify, ensures_pure]
      refine ⟨?_, ?_, fun _ _ => rfl, fun _ _ => rfl, ?_⟩
      · have same :
            total root
                { unbooted store nodes with
                  table := target
                  procs :=
                    Function.update (unbooted store nodes).procs first
                      { (unbooted store nodes).procs first with
                        cwd := cwd }
                  live := insert first (unbooted store nodes).live }
                noSpare.inodes =
              plusOption (plus (fun _ => 0) root) (some cwd) := by
          funext address
          simp [total, inodeRefs, fileRefs, cwdRefs, OpensInode, plus,
            plusOption, noSpare, unbooted, Finset.filter_singleton,
            apply_ite Finset.card, eq_comm]
        change Counted (total root _ _) target
        rw [same]
        exact located
      · intro f
        simp [slots, slotCount, noSpare, unbooted]
      · refine ⟨?_, ?_, ?_, List.nodup_nil⟩
        · rintro f pi writable ⟨isPipe, -⟩
          cases isPipe
        · intro pi member
          exact absurd member List.not_mem_nil
        · rintro f g pi writable ⟨isPipe, -⟩
          cases isPipe

/-! ## Runs of system calls -/

/-- A system call, with what the caller and the allocators choose. -/
inductive Call where
  | openat (dirfd : Int) (path : List UInt8) (omode : BitVec 32)
  | dup (fd : Int)
  | close (fd : Int)
  | pipe2 (flags : Int) (page : Option Nat)
  | chdir (path : List UInt8)
  | fork (child : Nat)
  | execve (path : List UInt8) (loads : Bool)
  | exit
  deriving DecidableEq

/-- A process makes a call. -/
structure Label where
  this : Nat
  env : Env
  call : Call

/-- A system call; what it returns to the process is dropped. -/
def perform (sblock : SuperBlock) (label : Label) : KernelProgram Unit :=
  match label.call with
  | .openat dirfd path omode =>
      discard <| openat sblock label.env label.this dirfd path omode
  | .dup fd => discard <| dup label.this fd
  | .close fd => discard <| close sblock label.env label.this fd
  | .pipe2 flags page =>
      discard <| pipe2 sblock label.env label.this flags page
  | .chdir path => discard <| chdir sblock label.env label.this path
  | .fork child => discard <| fork label.this child
  | .execve path loads => do
      let cwd := ((← get).procs label.this).cwd
      discard <| onTable (execve sblock label.env cwd path loads)
  | .exit => exit label.this

def step (sblock : SuperBlock) (system : System) (label : Label) :
    Except Halt System :=
  match (perform sblock label).run system with
  | .ok (_, target) => .ok target
  | .error halt => .error halt

/--
The process runs, `kalloc` returns memory which is not in use, and
`create_proc` returns a process which does not run.
-/
def Allowed (system : System) (label : Label) : Prop :=
  label.this ∈ system.live ∧
    match label.call with
    | .pipe2 _ page => ∀ pi ∈ page, pi ∉ system.allocated
    | .fork child => child ∉ system.live
    | _ => True

theorem ensures_discard
    {Value : Type}
    {program : KernelProgram Value}
    {system : System}
    {post : System → Prop}
    (inside :
      Ensures (fun _ => True) program system fun _ target =>
        post target) :
    Ensures (fun _ => True) (discard program) system fun _ target =>
      post target := by
  change Ensures _ (program >>= fun _ => pure ()) system _
  rw [ensures_bind]
  exact inside

section Steps

variable
    {sblock : SuperBlock}
    {root : Nat}
    {spare : Spare}
    {source target : System}
    {label : Label}

/-- Every call but `exit` keeps the references which are spare. -/
theorem kept_of_step
    (kept : Kept root spare source)
    (allowed : Allowed source label)
    (stays : label.call ≠ .exit)
    (taken : step sblock source label = .ok target) :
    Kept root spare target := by
  rcases label with ⟨this, env, call⟩
  rcases allowed with ⟨runs, promised⟩
  have performed :
      Ensures (fun _ => True) (perform sblock ⟨this, env, call⟩) source
        fun _ target => Kept root spare target := by
    cases call with
    | openat dirfd path omode =>
        exact ensures_discard (ensures_openat kept runs)
    | dup fd => exact ensures_discard (ensures_dup kept runs)
    | close fd => exact ensures_discard (ensures_close kept runs)
    | pipe2 flags page =>
        exact ensures_discard (ensures_pipe2 kept runs promised)
    | chdir path => exact ensures_discard (ensures_chdir kept runs)
    | fork child => exact ensures_discard (ensures_fork kept runs promised)
    | execve path loads =>
        change Ensures _ (MonadState.get >>= fun _ => _) source _
        rw [ensures_bind]
        exact ensures_discard (ensures_execve kept runs)
    | exit => exact absurd rfl stays
  unfold step at taken
  cases ran : (perform sblock ⟨this, env, call⟩).run source with
  | error halt =>
      rw [ran] at taken
      cases taken
  | ok result =>
      rw [ran] at taken
      cases taken
      exact performed.of_run ran

/-- `exit` makes the working directory of the process spare. -/
theorem kept_of_exit
    (kept : Kept root spare source)
    (allowed : Allowed source label)
    (exits : label.call = .exit)
    (taken : step sblock source label = .ok target) :
    Kept root
      { files := fun g =>
          spare.files g + slotCount g (source.procs label.this)
        inodes := plus spare.inodes (source.procs label.this).cwd }
      target := by
  rcases label with ⟨this, env, call⟩
  cases exits
  cases taken
  exact kept.leave allowed.1

end Steps

/-- No process has exited. -/
def NoExit (labels : List Label) : Prop :=
  ∀ label ∈ labels, label.call ≠ .exit

instance (labels : List Label) : Decidable (NoExit labels) :=
  inferInstanceAs (Decidable (∀ label ∈ labels, _))

section Runs

variable
    {sblock : SuperBlock}
    {root : Nat}
    {start finish : System}
    {labels : List Label}

/-- References are spare from the first `exit` on, and not before. -/
theorem kept_of_run
    (booted : Booted sblock root start)
    (run : Run (Takes (step sblock)) Allowed start labels finish) :
    ∃ spare, Kept root spare finish ∧
      (NoExit labels → spare = noSpare) ∧
      (¬ NoExit labels → ∃ address, 0 < spare.inodes address) := by
  induction run with
  | nil =>
      rcases booted with ⟨store, nodes, env, first, ran⟩
      refine ⟨noSpare, (ensures_boot store nodes).of_run ran,
        fun _ => rfl, ?_⟩
      intro exited
      exact absurd (fun label member => absurd member List.not_mem_nil)
        exited
  | snoc front permitted taken ih =>
      rename_i earlier middle label target
      rcases ih with ⟨spare, kept, clean, leaked⟩
      have split :
          NoExit (earlier ++ [label]) ↔
            NoExit earlier ∧ label.call ≠ .exit := by
        simp [NoExit, or_imp, forall_and]
      by_cases exits : label.call = .exit
      · refine ⟨_, kept_of_exit kept permitted exits taken, ?_, ?_⟩
        · intro none
          exact absurd exits (split.mp none).2
        · intro _
          exact ⟨(middle.procs label.this).cwd, by simp⟩
      · refine ⟨spare, kept_of_step kept permitted exits taken, ?_, ?_⟩
        · intro none
          exact clean (split.mp none).1
        · intro exited
          refine leaked fun none => ?_
          exact exited (split.mpr ⟨none, exits⟩)

end Runs

theorem Exact.of_kept
    {root : Nat}
    {system : System}
    (kept : Kept root noSpare system) :
    Exact root system := by
  refine ⟨?_, ?_, ?_⟩
  · intro f
    have counted := kept.files f
    simpa [noSpare] using counted
  · intro address member
    have counted := kept.inodes.rc address member
    simpa [total, noSpare] using counted
  · intro pi member writable
    constructor
    · intro isOpen
      rcases kept.pipes.opened pi member writable isOpen with ⟨f, isEnd⟩
      have opened : (system.files f).ref ≠ 0 := by
        intro closed
        have none := kept.closed f closed
        exact absurd (none.symm.trans isEnd.1) (by decide)
      have positive : slots system f ≠ 0 := by
        have counted := kept.files f
        simp only [noSpare, Int.add_zero] at counted
        intro zero
        rw [zero] at counted
        exact opened counted
      unfold slots at positive
      rcases Finset.exists_ne_zero_of_sum_ne_zero positive with
        ⟨proc, runs, some⟩
      unfold slotCount at some
      rcases Finset.exists_ne_zero_of_sum_ne_zero some with
        ⟨fd, -, here⟩
      refine ⟨proc, runs, fd, f, ?_, isEnd⟩
      by_contra other
      exact here (if_neg other)
    · rintro ⟨proc, -, fd, f, -, isEnd⟩
      exact (kept.pipes.ends f pi writable isEnd).2

/--
After every run, the counts are exact if and only if no process has exited.
-/
theorem exact_iff_no_exit
    {sblock : SuperBlock}
    {root : Nat}
    {start finish : System}
    {labels : List Label}
    (booted : Booted sblock root start)
    (run : Run (Takes (step sblock)) Allowed start labels finish) :
    Exact root finish ↔ NoExit labels := by
  rcases kept_of_run booted run with ⟨spare, kept, clean, leaked⟩
  constructor
  · intro exact
    by_contra exited
    rcases leaked exited with ⟨address, positive⟩
    have listed : address ∈ finish.table.head := by
      apply kept.inodes.listed
      exact Nat.lt_of_lt_of_le positive (Nat.le_add_left _ _)
    have counted := kept.inodes.rc address listed
    have counts := exact.inodes address listed
    simp only [total] at counted
    omega
  · intro none
    have same := clean none
    subst same
    exact Exact.of_kept kept

/-! ## A pipe which stays open -/

instance (system : System) (label : Label) :
    Decidable (Allowed system label) :=
  match label with
  | ⟨_, _, .openat _ _ _⟩ => inferInstanceAs (Decidable (_ ∧ True))
  | ⟨_, _, .dup _⟩ => inferInstanceAs (Decidable (_ ∧ True))
  | ⟨_, _, .close _⟩ => inferInstanceAs (Decidable (_ ∧ True))
  | ⟨_, _, .pipe2 _ page⟩ =>
      inferInstanceAs (Decidable (_ ∧ ∀ pi ∈ page, _))
  | ⟨_, _, .chdir _⟩ => inferInstanceAs (Decidable (_ ∧ True))
  | ⟨_, _, .fork _⟩ => inferInstanceAs (Decidable (_ ∧ _ ∉ _))
  | ⟨_, _, .execve _ _⟩ => inferInstanceAs (Decidable (_ ∧ True))
  | ⟨_, _, .exit⟩ => inferInstanceAs (Decidable (_ ∧ True))

/-- The greatest address in use. -/
def highest (used : List Nat) : Nat :=
  used.foldr max 0

theorem le_highest
    {used : List Nat}
    {address : Nat}
    (member : address ∈ used) :
    address ≤ highest used := by
  induction used with
  | nil => exact absurd member List.not_mem_nil
  | cons head rest ih =>
      rcases List.mem_cons.mp member with rfl | later
      · exact Nat.le_max_left _ _
      · exact Nat.le_trans (ih later) (Nat.le_max_right _ _)

/-- `kalloc` returns the first address above those in use. -/
def plainEnv : Env where
  kalloc := fun used => highest used + 1
  fresh := by
    intro used member
    exact absurd (le_highest member) (Nat.not_succ_le_self _)
  console := silent
  walk := fun _ => ⟨[], [0]⟩
  frame := fun _ => ⟨[], [0]⟩
  after := []
  logged := []

/-- Process 0 makes a pipe and a child. -/
def pipeAndFork : List Label :=
  [⟨0, plainEnv, .pipe2 0 (some 9)⟩, ⟨0, plainEnv, .fork 1⟩]

/-- The child exits, and the parent closes both ends. -/
def pipeLeft : List Label :=
  pipeAndFork ++
    [⟨1, plainEnv, .exit⟩, ⟨0, plainEnv, .close 0⟩,
      ⟨0, plainEnv, .close 1⟩]

/-- The small disk, booted with process 0. -/
def runBooted (labels : List Label) : Option (Nat × System) :=
  match
    (boot smallDisk plainEnv 0).run
      (unbooted emptyDisk.store emptyDisk.nodes)
  with
  | .ok (root, start) =>
      (executeChecked (step smallDisk)
        (fun system label => decide (Allowed system label)) start
        labels).map fun finish => (root, finish)
  | .error _ => none

theorem exists_run_of_runBooted
    {labels : List Label}
    {root : Nat}
    {finish : System}
    (ran : runBooted labels = some (root, finish)) :
    ∃ start, Booted smallDisk root start ∧
      Run (Takes (step smallDisk)) Allowed start labels finish := by
  unfold runBooted at ran
  split at ran
  · rename_i booted start started
    rcases Option.map_eq_some_iff.mp ran with ⟨reached, executed, same⟩
    cases same
    exact ⟨start, ⟨_, _, _, _, started⟩,
      Run.of_executeChecked (fun _ _ => of_decide_eq_true) executed⟩
  · cases ran

theorem exact_iff_no_exit_forked :
    ∃ root start finish,
      Booted smallDisk root start ∧
        Run (Takes (step smallDisk)) Allowed start pipeAndFork finish ∧
        (finish.files 1).ref = 2 ∧ Exact root finish := by
  have computed :
      ((runBooted pipeAndFork).map fun result =>
        (result.2.files 1).ref) = some 2 := by
    decide +kernel
  rcases Option.map_eq_some_iff.mp computed with
    ⟨⟨root, finish⟩, ran, shared⟩
  rcases exists_run_of_runBooted ran with ⟨start, booted, run⟩
  exact ⟨root, start, finish, booted, run, shared,
    (exact_iff_no_exit booted run).mpr (by decide)⟩

/-- Nothing refers to the pipe any more, and its write end stays open. -/
theorem pipe_open_after_exit :
    ∃ root start finish,
      Booted smallDisk root start ∧
        Run (Takes (step smallDisk)) Allowed start pipeLeft finish ∧
        (finish.pipes 9).writeopen = true ∧
        (finish.files 1).ref = 1 ∧ slots finish 1 = 0 ∧
        ¬ Exact root finish := by
  have computed :
      ((runBooted pipeLeft).map fun result =>
        ((result.2.pipes 9).writeopen, (result.2.files 1).ref,
          slots result.2 1)) = some (true, 1, 0) := by
    decide +kernel
  rcases Option.map_eq_some_iff.mp computed with
    ⟨⟨root, finish⟩, ran, values⟩
  rcases exists_run_of_runBooted ran with ⟨start, booted, run⟩
  simp only [Prod.mk.injEq] at values
  rcases values with ⟨isOpen, one, zero⟩
  refine ⟨root, start, finish, booted, run, isOpen, one, zero, ?_⟩
  intro exact
  have counted := exact.files 1
  rw [one, zero] at counted
  cases counted

end FudanOS.Kernel.FileRuns
