import FudanOS.Fs.InodeRefs
import FudanOS.Kernel.SysFile
import FudanOS.Library.Runs

/-!
# References to files, pipes and inodes

What the system calls do to the reference counts: `ref` of a `File` counts the
descriptors, `rc` of an inode counts the open files and the working
directories, and an end of a pipe is open as long as there is a file for it.
References which nothing shows any more, because a process has exited or a
call is on its way, are kept on the side.
-/

namespace FudanOS.Kernel.FileRefs

open FudanOS.Library.Programs
open FudanOS.Library.Runs
open FudanOS.Fs.Defines
open FudanOS.Fs.BlockBitmap
open FudanOS.Fs.InodeLayout
open FudanOS.Fs.InodeLayer
open FudanOS.Fs.Directory
open FudanOS.Fs.InodeTable
open FudanOS.Fs.Names
open FudanOS.Fs.InodeRefs
open FudanOS.Kernel.SysFile

/-! ## Calls of the file system -/

section Calls

variable
    {sblock : SuperBlock}
    {env : Env}
    {refs : Nat → Nat}
    {cwd : Nat}

theorem counts_beginOp :
    Counts refs (beginOp env) fun _ => refs := by
  intro state counted
  exact counted.of_nodes rfl rfl

theorem counts_createFound
    {dir inodeNo : Nat}
    {type : UInt16} :
    Counts (plus refs dir) (createFound sblock env dir inodeNo type)
      (plusOption refs) := by
  unfold createFound
  refine counts_get.bind fun ip => ?_
  rw [plus_comm]
  refine counts_unlock.bind fun _ => counts_put.bind fun _ => ?_
  refine counts_lock.bind fun _ => counts_entry.bind fun entry => ?_
  refine counts_ite (counts_pure rfl) ?_
  refine counts_unlock.bind fun _ => counts_put.bind fun _ => ?_
  exact counts_pure rfl

theorem counts_createNew
    {dir : Nat}
    {name : List UInt8}
    {type major minor : UInt16} :
    Counts (plus refs dir)
      (createNew sblock env dir name type major minor)
      (plusOption refs) := by
  unfold createNew
  refine counts_onStore.bind fun _ => counts_get.bind fun ip => ?_
  rw [plus_comm]
  refine counts_lock.bind fun _ => counts_setEntry.bind fun _ => ?_
  refine counts_sync.bind fun _ => ?_
  have rest :
      Counts (plus (plus refs ip) dir)
        (do
          let _ ←
            Inodes.insert sblock env (env.frame 3) dir name
              (← Inodes.inodeNo ip)
          Inodes.unlock dir
          Inodes.put sblock dir
          return some ip) (plusOption refs) := by
    refine counts_inodeNo.bind fun _ => counts_insert.bind fun _ => ?_
    refine counts_unlock.bind fun _ => counts_put.bind fun _ => ?_
    exact counts_pure rfl
  refine counts_ite ?_ rest
  refine counts_setEntry.bind fun _ => counts_sync.bind fun _ => ?_
  refine counts_inodeNo.bind fun _ => counts_insert.bind fun _ => ?_
  refine counts_inodeNo.bind fun _ => counts_insert.bind fun _ => ?_
  exact rest

theorem counts_create
    (referenced : 0 < refs cwd)
    {path : List UInt8}
    {type major minor : UInt16} :
    Counts refs (create sblock env cwd path type major minor)
      (plusOption refs) := by
  unfold create
  refine (counts_namex referenced).bind fun found => ?_
  cases found with
  | none => exact counts_pure rfl
  | some pair =>
      refine counts_lock.bind fun _ => counts_reads.bind fun entry => ?_
      cases entry with
      | none => exact counts_createNew
      | some place => exact counts_createFound

theorem counts_openInode
    (referenced : 0 < refs cwd)
    {path : List UInt8}
    {omode : BitVec 32} :
    Counts refs (openInode sblock env cwd path omode)
      (plusOption refs) := by
  unfold openInode
  refine counts_beginOp.bind fun _ => ?_
  refine counts_ite (counts_create referenced) ?_
  refine (counts_namei referenced).bind fun found => ?_
  cases found with
  | none => exact counts_pure rfl
  | some ip => exact counts_lock.bind fun _ => counts_pure rfl

/-- The working directory before and after `chdir`. -/
def plusCwd (refs : Nat → Nat) (cwd : Nat) : Option Nat → Nat → Nat
  | none => plus refs cwd
  | some ip => plus refs ip

theorem counts_chdirTo
    {path : List UInt8} :
    Counts (plus refs cwd) (chdirTo sblock env cwd path)
      (plusCwd refs cwd) := by
  have referenced : 0 < plus refs cwd cwd := by simp
  unfold chdirTo
  refine counts_beginOp.bind fun _ => ?_
  refine (counts_namei referenced).bind fun found => ?_
  cases found with
  | none => exact counts_pure rfl
  | some ip =>
      refine counts_lock.bind fun _ => counts_entry.bind fun _ => ?_
      refine counts_ite ?_ ?_
      · refine counts_unlock.bind fun _ => counts_put.bind fun _ => ?_
        exact counts_pure rfl
      · refine counts_unlock.bind fun _ => ?_
        change Counts (plus (plus refs cwd) ip) _ _
        rw [plus_comm]
        exact counts_put.bind fun _ => counts_pure rfl

theorem counts_execve
    (referenced : 0 < refs cwd)
    {path : List UInt8}
    {loads : Bool} :
    Counts refs (execve sblock env cwd path loads) fun _ => refs := by
  unfold execve
  refine counts_beginOp.bind fun _ => ?_
  refine (counts_namei referenced).bind fun found => ?_
  cases found with
  | none => exact counts_pure rfl
  | some ip =>
      refine counts_lock.bind fun _ => counts_unlock.bind fun _ => ?_
      exact counts_put.bind fun _ => counts_pure rfl

end Calls

/-! ## The references of a state -/

/-- The descriptors of a process which point to a file. -/
def slotCount (f : Nat) (proc : ProcFiles) : Nat :=
  ∑ fd, if proc.openfile fd = some f then 1 else 0

/-- The descriptors of the processes which run and point to a file. -/
def slots (system : System) (f : Nat) : Nat :=
  ∑ proc ∈ system.live, slotCount f (system.procs proc)

/-- The file is open, and its inode is at an address. -/
def OpensInode (address : Nat) (file : File) : Prop :=
  file.ref ≠ 0 ∧ file.type = .inode ∧ file.object = address

instance (address : Nat) (file : File) :
    Decidable (OpensInode address file) :=
  inferInstanceAs (Decidable (_ ∧ _))

/-- The open files on an inode. -/
def fileRefs (files : Nat → File) (address : Nat) : Nat :=
  ∑ f ∈ Finset.range nfile, if OpensInode address (files f) then 1 else 0

/-- The processes which run and have an inode as working directory. -/
def cwdRefs (system : System) (address : Nat) : Nat :=
  ∑ proc ∈ system.live,
    if (system.procs proc).cwd = address then 1 else 0

/-- The references to an inode; `inodes.root` is one of them. -/
def inodeRefs (root : Nat) (system : System) (address : Nat) : Nat :=
  (if address = root then 1 else 0) + fileRefs system.files address +
    cwdRefs system address

/-- A file for an end of a pipe. -/
def IsEnd (pi : Nat) (writable : Bool) (file : File) : Prop :=
  file.type = .pipe ∧ file.object = pi ∧ file.writable = writable

/-- `readopen` or `writeopen` -/
def endOpen (pipe : Pipe) : Bool → Bool
  | true => pipe.writeopen
  | false => pipe.readopen

/-- A process which runs has a descriptor for an end of a pipe. -/
def Refers (system : System) (pi : Nat) (writable : Bool) : Prop :=
  ∃ proc ∈ system.live, ∃ fd f,
    (system.procs proc).openfile fd = some f ∧
      IsEnd pi writable (system.files f)

/-- The counts are exact. -/
structure Exact (root : Nat) (system : System) : Prop where
  files : ∀ f, (system.files f).ref = slots system f
  inodes :
    ∀ address ∈ system.table.head,
      (system.table.nodes address).rc = inodeRefs root system address
  ends :
    ∀ pi ∈ system.allocated, ∀ writable,
      endOpen (system.pipes pi) writable = true ↔
        Refers system pi writable

/-! ## What every call keeps -/

/-- References which no descriptor, file or working directory shows. -/
structure Spare where
  files : Nat → Int
  inodes : Nat → Nat

/-- The files of the pipes, and the pipes. -/
structure PipesKept
    (files : Nat → File)
    (pipes : Nat → Pipe)
    (allocated : List Nat) : Prop where
  ends :
    ∀ f pi writable, IsEnd pi writable (files f) →
      pi ∈ allocated ∧ endOpen (pipes pi) writable = true
  opened :
    ∀ pi ∈ allocated, ∀ writable, endOpen (pipes pi) writable = true →
      ∃ f, IsEnd pi writable (files f)
  unique :
    ∀ f g pi writable, IsEnd pi writable (files f) →
      IsEnd pi writable (files g) → f = g
  nodup : allocated.Nodup

/-- The references to an inode, with the spare ones. -/
def total (root : Nat) (system : System) (spare : Nat → Nat) : Nat → Nat :=
  fun address => inodeRefs root system address + spare address

structure Kept (root : Nat) (spare : Spare) (system : System) : Prop where
  inodes : Counted (total root system spare.inodes) system.table
  files : ∀ f, (system.files f).ref = slots system f + spare.files f
  closed : ∀ f, (system.files f).ref = 0 → (system.files f).type = .none
  bounded : ∀ f, nfile ≤ f → (system.files f).ref = 0
  pipes : PipesKept system.files system.pipes system.allocated

section Sums

variable
    {system : System}
    {this : Nat}

theorem plus_total
    (root : Nat)
    (system : System)
    (spare : Nat → Nat)
    (address : Nat) :
    plus (total root system spare) address =
      total root system (plus spare address) := by
  funext other
  simp only [plus, total]
  omega

theorem fileRefs_update
    (files : Nat → File)
    {f : Nat}
    (below : f < nfile)
    (file : File)
    (address : Nat) :
    fileRefs (Function.update files f file) address +
        (if OpensInode address (files f) then 1 else 0) =
      fileRefs files address +
        if OpensInode address file then 1 else 0 :=
  sum_update_add_of_mem
    (fun file => if OpensInode address file then 1 else 0) files
    (Finset.mem_range.mpr below) file

/-- A slot of a process is overwritten. -/
theorem slotCount_update
    (proc : ProcFiles)
    (fd : Fin noFile)
    (slot : Option Nat)
    (f : Nat) :
    slotCount f
          { proc with openfile := Function.update proc.openfile fd slot } +
        (if proc.openfile fd = some f then 1 else 0) =
      slotCount f proc + if slot = some f then 1 else 0 :=
  sum_update_add (fun slot => if slot = some f then 1 else 0)
    proc.openfile fd slot

theorem slots_update
    (runs : this ∈ system.live)
    (proc : ProcFiles)
    (f : Nat) :
    slots { system with procs := Function.update system.procs this proc }
          f +
        slotCount f (system.procs this) =
      slots system f + slotCount f proc :=
  sum_update_add_of_mem (slotCount f) system.procs runs proc

theorem cwdRefs_update
    (runs : this ∈ system.live)
    (proc : ProcFiles)
    (address : Nat) :
    cwdRefs { system with procs := Function.update system.procs this proc }
          address +
        (if (system.procs this).cwd = address then 1 else 0) =
      cwdRefs system address +
        if proc.cwd = address then 1 else 0 :=
  sum_update_add_of_mem
    (fun proc : ProcFiles => if proc.cwd = address then 1 else 0)
    system.procs runs proc

theorem cwdRefs_pos
    (runs : this ∈ system.live) :
    0 < cwdRefs system (system.procs this).cwd := by
  have here :=
    Finset.add_sum_erase system.live
      (fun proc =>
        if (system.procs proc).cwd = (system.procs this).cwd then 1
        else 0) runs
  rw [if_pos rfl] at here
  rw [cwdRefs]
  omega

/-- There is a reference to every working directory. -/
theorem total_cwd_pos
    (root : Nat)
    (spare : Nat → Nat)
    (runs : this ∈ system.live) :
    0 < total root system spare (system.procs this).cwd := by
  have positive := cwdRefs_pos runs
  simp only [total, inodeRefs]
  omega

/-- The references without the one of a working directory. -/
theorem plus_without
    (root : Nat)
    (spare : Nat → Nat)
    (runs : this ∈ system.live) :
    plus
        (fun address =>
          total root system spare address -
            if address = (system.procs this).cwd then 1 else 0)
        (system.procs this).cwd =
      total root system spare := by
  funext address
  have positive := total_cwd_pos root spare runs
  simp only [plus]
  by_cases same : address = (system.procs this).cwd
  · subst same
    rw [if_pos rfl]
    exact Nat.sub_add_cancel positive
  · rw [if_neg same]
    omega

end Sums

namespace PipesKept

variable
    {files : Nat → File}
    {pipes : Nat → Pipe}
    {allocated : List Nat}

theorem congr
    {others : Nat → File}
    (kept : PipesKept files pipes allocated)
    (same :
      ∀ f pi writable,
        IsEnd pi writable (others f) ↔ IsEnd pi writable (files f)) :
    PipesKept others pipes allocated := by
  refine ⟨?_, ?_, ?_, kept.nodup⟩
  · intro f pi writable isEnd
    exact kept.ends f pi writable ((same f pi writable).mp isEnd)
  · intro pi member writable isOpen
    rcases kept.opened pi member writable isOpen with ⟨f, isEnd⟩
    exact ⟨f, (same f pi writable).mpr isEnd⟩
  · intro f g pi writable left right
    exact kept.unique f g pi writable ((same f pi writable).mp left)
      ((same g pi writable).mp right)

/-- A file which is for no pipe, before and after. -/
theorem update
    (kept : PipesKept files pipes allocated)
    {f : Nat}
    {file : File}
    (notBefore : (files f).type ≠ .pipe)
    (notAfter : file.type ≠ .pipe) :
    PipesKept (Function.update files f file) pipes allocated := by
  refine kept.congr fun g pi writable => ?_
  by_cases same : g = f
  · subst same
    rw [Function.update_self]
    exact ⟨fun isEnd => absurd isEnd.1 notAfter,
      fun isEnd => absurd isEnd.1 notBefore⟩
  · rw [Function.update_of_ne same]

/-- `pipe_close`, after the last reference to its file is gone. -/
theorem close
    (kept : PipesKept files pipes allocated)
    {f pi : Nat}
    {writable : Bool}
    (isEnd : IsEnd pi writable (files f))
    {file : File}
    (notAfter : file.type ≠ .pipe)
    {pipe : Pipe}
    (closes : endOpen pipe writable = false)
    (other : endOpen pipe (!writable) = endOpen (pipes pi) (!writable)) :
    PipesKept (Function.update files f file)
      (Function.update pipes pi pipe)
      (if pipe.readopen = false ∧ pipe.writeopen = false then
        allocated.erase pi
      else
        allocated) := by
  -- An end which is left is that of another file.
  have left :
      ∀ g qi side, IsEnd qi side (Function.update files f file g) →
        g ≠ f ∧ IsEnd qi side (files g) := by
    intro g qi side there
    by_cases same : g = f
    · subst same
      rw [Function.update_self] at there
      exact absurd there.1 notAfter
    · rw [Function.update_of_ne same] at there
      exact ⟨same, there⟩
  have across :
      ∀ g side, IsEnd pi side (files g) → g ≠ f → side = !writable := by
    intro g side there different
    cases side with
    | true =>
        cases writable with
        | true => exact absurd (kept.unique g f pi true there isEnd) different
        | false => rfl
    | false =>
        cases writable with
        | true => rfl
        | false =>
            exact absurd (kept.unique g f pi false there isEnd) different
  have stays :
      ∀ qi, qi ∈ (if pipe.readopen = false ∧ pipe.writeopen = false then
          allocated.erase pi else allocated) → qi ∈ allocated := by
    intro qi member
    split_ifs at member
    · exact List.mem_of_mem_erase member
    · exact member
  refine ⟨?_, ?_, ?_, ?_⟩
  · intro g qi side there
    rcases left g qi side there with ⟨different, before⟩
    rcases kept.ends g qi side before with ⟨member, isOpen⟩
    by_cases same : qi = pi
    · subst same
      have isAcross := across g side before different
      subst isAcross
      have stillOpen : endOpen pipe (!writable) = true :=
        other.trans isOpen
      rw [Function.update_self, if_neg]
      · exact ⟨member, stillOpen⟩
      · rintro ⟨noRead, noWrite⟩
        cases writable with
        | true => exact absurd (noRead.symm.trans stillOpen) (by decide)
        | false => exact absurd (noWrite.symm.trans stillOpen) (by decide)
    · rw [Function.update_of_ne same]
      refine ⟨?_, isOpen⟩
      split_ifs
      · exact (List.mem_erase_of_ne same).mpr member
      · exact member
  · intro qi member side isOpen
    by_cases same : qi = pi
    · subst same
      rw [Function.update_self] at isOpen
      have isAcross : side = !writable := by
        cases side with
        | true =>
            cases writable with
            | true => exact absurd (closes.symm.trans isOpen) (by decide)
            | false => rfl
        | false =>
            cases writable with
            | true => rfl
            | false => exact absurd (closes.symm.trans isOpen) (by decide)
      subst isAcross
      rw [other] at isOpen
      rcases kept.opened qi (stays qi member) _ isOpen with ⟨g, there⟩
      refine ⟨g, ?_⟩
      rw [Function.update_of_ne]
      · exact there
      · rintro rfl
        have sides := there.2.2.symm.trans isEnd.2.2
        cases writable with
        | true => exact absurd sides (by decide)
        | false => exact absurd sides (by decide)
    · rw [Function.update_of_ne same] at isOpen
      rcases kept.opened qi (stays qi member) side isOpen with ⟨g, there⟩
      refine ⟨g, ?_⟩
      rw [Function.update_of_ne]
      · exact there
      · rintro rfl
        exact same (there.2.1.symm.trans isEnd.2.1)
  · intro g h qi side first second
    exact kept.unique g h qi side (left g qi side first).2
      (left h qi side second).2
  · split_ifs
    · exact kept.nodup.erase pi
    · exact kept.nodup

/-- `init_pipe`, with the files of its two ends. -/
theorem create
    (kept : PipesKept files pipes allocated)
    {rf wf pi : Nat}
    (different : rf ≠ wf)
    (readerFree : (files rf).type = .none)
    (writerFree : (files wf).type = .none)
    (fresh : pi ∉ allocated)
    {reader writer : File}
    (isReader : IsEnd pi false reader)
    (isWriter : IsEnd pi true writer) :
    PipesKept
      (Function.update (Function.update files rf reader) wf writer)
      (Function.update pipes pi ⟨true, true⟩) (pi :: allocated) := by
  have atReader :
      Function.update (Function.update files rf reader) wf writer rf =
        reader := by
    rw [Function.update_of_ne different, Function.update_self]
  have atWriter :
      Function.update (Function.update files rf reader) wf writer wf =
        writer := by
    rw [Function.update_self]
  have elsewhere :
      ∀ f, f ≠ rf → f ≠ wf →
        Function.update (Function.update files rf reader) wf writer f =
          files f := by
    intro f notReader notWriter
    rw [Function.update_of_ne notWriter, Function.update_of_ne notReader]
  have old :
      ∀ f qi side, IsEnd qi side (files f) →
        f ≠ rf ∧ f ≠ wf ∧ qi ≠ pi := by
    intro f qi side isEnd
    refine ⟨?_, ?_, ?_⟩
    · rintro rfl
      exact absurd (readerFree.symm.trans isEnd.1) (by decide)
    · rintro rfl
      exact absurd (writerFree.symm.trans isEnd.1) (by decide)
    · rintro rfl
      exact fresh (kept.ends f qi side isEnd).1
  have cases :
      ∀ f qi side,
        IsEnd qi side
          (Function.update (Function.update files rf reader) wf writer f) →
        (f = rf ∧ qi = pi ∧ side = false) ∨
          (f = wf ∧ qi = pi ∧ side = true) ∨ IsEnd qi side (files f) := by
    intro f qi side isEnd
    by_cases first : f = rf
    · subst first
      rw [atReader] at isEnd
      exact Or.inl ⟨rfl, isEnd.2.1.symm.trans isReader.2.1,
        isEnd.2.2.symm.trans isReader.2.2⟩
    · by_cases second : f = wf
      · subst second
        rw [atWriter] at isEnd
        exact Or.inr (Or.inl ⟨rfl, isEnd.2.1.symm.trans isWriter.2.1,
          isEnd.2.2.symm.trans isWriter.2.2⟩)
      · rw [elsewhere f first second] at isEnd
        exact Or.inr (Or.inr isEnd)
  refine ⟨?_, ?_, ?_, List.nodup_cons.mpr ⟨fresh, kept.nodup⟩⟩
  · intro f qi side isEnd
    rcases cases f qi side isEnd with
      ⟨-, rfl, rfl⟩ | ⟨-, rfl, rfl⟩ | before
    · rw [Function.update_self]
      exact ⟨List.mem_cons_self, rfl⟩
    · rw [Function.update_self]
      exact ⟨List.mem_cons_self, rfl⟩
    · rw [Function.update_of_ne (old f qi side before).2.2]
      rcases kept.ends f qi side before with ⟨member, isOpen⟩
      exact ⟨List.mem_cons_of_mem _ member, isOpen⟩
  · intro qi member side isOpen
    by_cases same : qi = pi
    · subst same
      cases side with
      | true => exact ⟨wf, atWriter.symm ▸ isWriter⟩
      | false => exact ⟨rf, atReader.symm ▸ isReader⟩
    · rw [Function.update_of_ne same] at isOpen
      have before : qi ∈ allocated := by
        rcases List.mem_cons.mp member with here | there
        · exact absurd here same
        · exact there
      rcases kept.opened qi before side isOpen with ⟨f, isEnd⟩
      rcases old f qi side isEnd with ⟨notReader, notWriter, -⟩
      exact ⟨f, (elsewhere f notReader notWriter).symm ▸ isEnd⟩
  · intro f g qi side first second
    rcases cases f qi side first with
      ⟨rfl, rfl, rfl⟩ | ⟨rfl, rfl, rfl⟩ | before
    · rcases cases g _ _ second with
        ⟨rfl, -, -⟩ | ⟨-, -, wrong⟩ | other
      · rfl
      · cases wrong
      · exact absurd rfl (old g _ _ other).2.2
    · rcases cases g _ _ second with
        ⟨-, -, wrong⟩ | ⟨rfl, -, -⟩ | other
      · cases wrong
      · rfl
      · exact absurd rfl (old g _ _ other).2.2
    · rcases cases g _ _ second with
        ⟨-, rfl, -⟩ | ⟨-, rfl, -⟩ | other
      · exact absurd rfl (old f _ _ before).2.2
      · exact absurd rfl (old f _ _ before).2.2
      · exact kept.unique f g qi side before other

end PipesKept

/-- Spare references to a file. -/
def Spare.addFile (spare : Spare) (f : Nat) (count : Int) : Spare :=
  { spare with
    files := fun g => spare.files g + if g = f then count else 0 }

namespace Kept

variable
    {root : Nat}
    {spare : Spare}
    {system : System}
    {f : Nat}

theorem congr
    {others : Spare}
    (kept : Kept root spare system)
    (files : ∀ f, others.files f = spare.files f)
    (inodes : ∀ address, others.inodes address = spare.inodes address) :
    Kept root others system := by
  have same : others = spare := by
    cases others
    cases spare
    simp only [Spare.mk.injEq]
    exact ⟨funext files, funext inodes⟩
  rw [same]
  exact kept

/-- The file system has changed the number of references. -/
theorem setTable
    (kept : Kept root spare system)
    {table : State}
    {inodes : Nat → Nat}
    (counted : Counted (total root system inodes) table) :
    Kept root { spare with inodes := inodes }
      { system with table := table } :=
  ⟨counted, kept.files, kept.closed, kept.bounded, kept.pipes⟩

/-- A file is overwritten, and perhaps the pipes with it. -/
theorem setFile
    (kept : Kept root spare system)
    (below : f < nfile)
    (file : File)
    (inodes : Nat → Nat)
    (moved :
      ∀ address,
        inodes address + (if OpensInode address file then 1 else 0) =
          spare.inodes address +
            if OpensInode address (system.files f) then 1 else 0)
    (closed : file.ref = 0 → file.type = .none)
    {pipes : Nat → Pipe}
    {allocated : List Nat}
    (pipesKept :
      PipesKept (Function.update system.files f file) pipes allocated) :
    Kept root
      ⟨(spare.addFile f (file.ref - (system.files f).ref)).files, inodes⟩
      { system with
        files := Function.update system.files f file
        pipes := pipes
        allocated := allocated } := by
  refine ⟨?_, ?_, ?_, ?_, pipesKept⟩
  · have same :
        total root
            { system with
              files := Function.update system.files f file
              pipes := pipes
              allocated := allocated } inodes =
          total root system spare.inodes := by
      funext address
      have refs := fileRefs_update system.files below file address
      have here := moved address
      have sameCwd :
          cwdRefs
              { system with
                files := Function.update system.files f file
                pipes := pipes
                allocated := allocated } address =
            cwdRefs system address := rfl
      simp only [total, inodeRefs, sameCwd]
      omega
    change Counted (total root _ inodes) system.table
    rw [same]
    exact kept.inodes
  · intro g
    have before := kept.files g
    change (Function.update system.files f file g).ref =
      slots system g + (spare.files g + _)
    by_cases same : g = f
    · subst same
      rw [Function.update_self, if_pos rfl]
      omega
    · rw [Function.update_of_ne same, if_neg same]
      omega
  · intro g isClosed
    dsimp only at isClosed ⊢
    by_cases same : g = f
    · subst same
      rw [Function.update_self] at isClosed ⊢
      exact closed isClosed
    · rw [Function.update_of_ne same] at isClosed ⊢
      exact kept.closed g isClosed
  · intro g outside
    have different : g ≠ f := by omega
    dsimp only
    rw [Function.update_of_ne different]
    exact kept.bounded g outside

theorem below_of_open
    (kept : Kept root spare system)
    (isOpen : (system.files f).ref ≠ 0) :
    f < nfile := by
  by_contra outside
  exact isOpen (kept.bounded f (Nat.le_of_not_lt outside))

/-- A file stays what it is, with another number of references. -/
theorem setRef
    (kept : Kept root spare system)
    (below : f < nfile)
    {ref : Int}
    (isOpen : ref ≠ 0) :
    Kept root (spare.addFile f (ref - (system.files f).ref))
      { system with
        files :=
          Function.update system.files f
            { system.files f with ref := ref } } := by
  refine kept.setFile below { system.files f with ref := ref }
    spare.inodes ?_ ?_ ?_
  · intro address
    by_cases closed : (system.files f).ref = 0
    · have none := kept.closed f closed
      simp [OpensInode, none]
    · simp [OpensInode, closed, isOpen]
  · exact fun closed => absurd closed isOpen
  · refine kept.pipes.congr fun g pi writable => ?_
    by_cases same : g = f
    · subst same
      rw [Function.update_self]
      exact Iff.rfl
    · rw [Function.update_of_ne same]

/-- The last reference to a file of an inode becomes one which is spare. -/
theorem dropInode
    (kept : Kept root spare system)
    (isOpen : (system.files f).ref ≠ 0)
    (type : (system.files f).type = .inode)
    {file : File}
    (ref : file.ref = 0)
    (none : file.type = .none) :
    Kept root
      ⟨(spare.addFile f (file.ref - (system.files f).ref)).files,
        plus spare.inodes (system.files f).object⟩
      { system with files := Function.update system.files f file } := by
  refine kept.setFile (kept.below_of_open isOpen) file
    (plus spare.inodes (system.files f).object) ?_ (fun _ => none)
    (kept.pipes.update (type ▸ by decide) (none ▸ by decide))
  intro address
  have before :
      OpensInode address (system.files f) ↔
        address = (system.files f).object := by
    constructor
    · rintro ⟨-, -, same⟩
      exact same.symm
    · rintro rfl
      exact ⟨isOpen, type, rfl⟩
  have after : ¬ OpensInode address file := fun opens => opens.1 ref
  rw [if_neg after]
  simp only [before, plus]
  omega

/-- A file which is open becomes a file for an inode. -/
theorem openInode
    {inodes : Nat → Nat}
    {ip : Nat}
    (kept : Kept root { spare with inodes := plus inodes ip } system)
    (isOpen : (system.files f).ref ≠ 0)
    (free : (system.files f).type = .none)
    {file : File}
    (ref : file.ref = (system.files f).ref)
    (type : file.type = .inode)
    (object : file.object = ip) :
    Kept root { spare with inodes := inodes }
      { system with files := Function.update system.files f file } := by
  have replaced :=
    kept.setFile (kept.below_of_open isOpen) file inodes ?_ ?_
      (kept.pipes.update (free ▸ by decide) (type ▸ by decide))
  · refine replaced.congr (fun g => ?_) fun _ => rfl
    simp [Spare.addFile, ref]
  · intro address
    have before : ¬ OpensInode address (system.files f) := by
      rintro ⟨-, isInode, -⟩
      rw [free] at isInode
      cases isInode
    have after : OpensInode address file ↔ address = ip := by
      constructor
      · rintro ⟨-, -, same⟩
        exact same.symm.trans object
      · rintro rfl
        exact ⟨ref.symm ▸ isOpen, type, object⟩
    rw [if_neg before]
    simp only [after, plus]
    omega
  · intro closed
    exact absurd (ref.symm.trans closed) isOpen

/-- `init_pipe` turns two files which are open into the ends of a pipe. -/
theorem makePipe
    (kept : Kept root spare system)
    {rf wf pi : Nat}
    (different : rf ≠ wf)
    (readerOpen : (system.files rf).ref ≠ 0)
    (writerOpen : (system.files wf).ref ≠ 0)
    (readerFree : (system.files rf).type = .none)
    (writerFree : (system.files wf).type = .none)
    (fresh : pi ∉ system.allocated)
    {reader writer : File}
    (readerRef : reader.ref = (system.files rf).ref)
    (writerRef : writer.ref = (system.files wf).ref)
    (isReader : IsEnd pi false reader)
    (isWriter : IsEnd pi true writer) :
    Kept root spare
      { system with
        files :=
          Function.update (Function.update system.files rf reader) wf
            writer
        pipes := Function.update system.pipes pi ⟨true, true⟩
        allocated := pi :: system.allocated } := by
  let files :=
    Function.update (Function.update system.files rf reader) wf writer
  have atReader : files rf = reader := by
    simp only [files]
    rw [Function.update_of_ne different, Function.update_self]
  have atWriter : files wf = writer := Function.update_self _ _ _
  have elsewhere : ∀ f, f ≠ rf → f ≠ wf → files f = system.files f := by
    intro f notReader notWriter
    simp only [files]
    rw [Function.update_of_ne notWriter, Function.update_of_ne notReader]
  have sameRef : ∀ f, (files f).ref = (system.files f).ref := by
    intro f
    by_cases first : f = rf
    · rw [first, atReader, readerRef]
    · by_cases second : f = wf
      · rw [second, atWriter, writerRef]
      · rw [elsewhere f first second]
  have sameOpens :
      ∀ f address,
        OpensInode address (files f) ↔
          OpensInode address (system.files f) := by
    intro f address
    by_cases first : f = rf
    · rw [first, atReader]
      simp [OpensInode, isReader.1, readerFree]
    · by_cases second : f = wf
      · rw [second, atWriter]
        simp [OpensInode, isWriter.1, writerFree]
      · rw [elsewhere f first second]
  refine ⟨?_, ?_, ?_, ?_, ?_⟩
  · have same :
        total root
            { system with
              files := files
              pipes := Function.update system.pipes pi ⟨true, true⟩
              allocated := pi :: system.allocated } spare.inodes =
          total root system spare.inodes := by
      funext address
      have sameFiles :
          fileRefs files address = fileRefs system.files address := by
        simp only [fileRefs, sameOpens]
      simp only [total, inodeRefs, sameFiles]
      rfl
    change Counted (total root _ _) system.table
    rw [same]
    exact kept.inodes
  · intro f
    exact (sameRef f).trans (kept.files f)
  · intro f closed
    have closedBefore := (sameRef f).symm.trans closed
    have notReader : f ≠ rf := by
      rintro rfl
      exact readerOpen closedBefore
    have notWriter : f ≠ wf := by
      rintro rfl
      exact writerOpen closedBefore
    change (files f).type = .none
    rw [elsewhere f notReader notWriter]
    exact kept.closed f closedBefore
  · intro f outside
    exact (sameRef f).trans (kept.bounded f outside)
  · exact kept.pipes.create different readerFree writerFree fresh isReader
      isWriter

section Procs

variable {this : Nat}

/-- The files of a process which runs are overwritten. -/
theorem setProc
    (kept : Kept root spare system)
    (runs : this ∈ system.live)
    (proc : ProcFiles)
    (others : Spare)
    (files :
      ∀ g,
        others.files g + slotCount g proc =
          spare.files g + slotCount g (system.procs this))
    (inodes :
      ∀ address,
        others.inodes address + (if proc.cwd = address then 1 else 0) =
          spare.inodes address +
            if (system.procs this).cwd = address then 1 else 0) :
    Kept root others
      { system with
        procs := Function.update system.procs this proc } := by
  refine ⟨?_, ?_, kept.closed, kept.bounded, kept.pipes⟩
  · have same :
        total root
            { system with
              procs := Function.update system.procs this proc }
            others.inodes =
          total root system spare.inodes := by
      funext address
      have moved := cwdRefs_update runs proc address
      have here := inodes address
      simp only [total, inodeRefs]
      omega
    change Counted (total root _ others.inodes) system.table
    rw [same]
    exact kept.inodes
  · intro g
    have before := kept.files g
    have moved := slots_update runs proc g
    have here := files g
    dsimp only
    omega

/-- A descriptor is set. -/
theorem setSlot
    (kept : Kept root spare system)
    (runs : this ∈ system.live)
    (fd : Fin noFile)
    (slot : Option Nat) :
    Kept root
      { spare with
        files := fun g =>
          spare.files g +
            (if (system.procs this).openfile fd = some g then 1 else 0) -
            if slot = some g then 1 else 0 }
      { system with
        procs :=
          Function.update system.procs this
            { system.procs this with
              openfile :=
                Function.update (system.procs this).openfile fd
                  slot } } := by
  refine kept.setProc runs _ _ ?_ ?_
  · intro g
    have moved := slotCount_update (system.procs this) fd slot g
    dsimp only at moved ⊢
    split_ifs at moved ⊢ <;> omega
  · intro address
    rfl

/-- The working directory is set, after the old one is given back. -/
theorem setCwd
    (kept : Kept root spare system)
    (runs : this ∈ system.live)
    {rest : Nat → Nat}
    {ip : Nat}
    {table : State}
    (before :
      plus rest (system.procs this).cwd = total root system spare.inodes)
    (counted : Counted (plus rest ip) table) :
    Kept root spare
      { system with
        table := table
        procs :=
          Function.update system.procs this
            { system.procs this with cwd := ip } } := by
  refine ⟨?_, ?_, kept.closed, kept.bounded, kept.pipes⟩
  · have same :
        total root
            { system with
              table := table
              procs :=
                Function.update system.procs this
                  { system.procs this with cwd := ip } }
            spare.inodes =
          plus rest ip := by
      funext address
      have moved :=
        cwdRefs_update runs { system.procs this with cwd := ip } address
      have here := congrFun before address
      have sameCwd :
          cwdRefs
              { system with
                table := table
                procs :=
                  Function.update system.procs this
                    { system.procs this with cwd := ip } } address =
            cwdRefs
              { system with
                procs :=
                  Function.update system.procs this
                    { system.procs this with cwd := ip } } address := rfl
      simp only [total, inodeRefs, plus, sameCwd] at here ⊢
      simp only [eq_comm (b := address)] at moved
      omega
    change Counted (total root _ spare.inodes) table
    rw [same]
    exact counted
  · intro g
    have moved :=
      slots_update runs { system.procs this with cwd := ip } g
    have sameCount :
        slotCount g { system.procs this with cwd := ip } =
          slotCount g (system.procs this) := rfl
    have sameSlots :
        slots
            { system with
              table := table
              procs :=
                Function.update system.procs this
                  { system.procs this with cwd := ip } } g =
          slots
            { system with
              procs :=
                Function.update system.procs this
                  { system.procs this with cwd := ip } } g := rfl
    have before := kept.files g
    rw [sameSlots]
    dsimp only at moved sameCount ⊢
    omega

/-- The files of a process which does not run may change. -/
theorem setOther
    (kept : Kept root spare system)
    (idle : this ∉ system.live)
    (proc : ProcFiles) :
    Kept root spare
      { system with
        procs := Function.update system.procs this proc } := by
  have sameSlots :
      ∀ g,
        slots
            { system with
              procs := Function.update system.procs this proc } g =
          slots system g := by
    intro g
    exact sum_update_of_notMem (slotCount g) system.procs idle proc
  have sameCwd :
      ∀ address,
        cwdRefs
            { system with
              procs := Function.update system.procs this proc } address =
          cwdRefs system address := by
    intro address
    exact sum_update_of_notMem
      (fun proc : ProcFiles => if proc.cwd = address then 1 else 0)
      system.procs idle proc
  refine ⟨?_, ?_, kept.closed, kept.bounded, kept.pipes⟩
  · have same :
        total root
            { system with
              procs := Function.update system.procs this proc }
            spare.inodes =
          total root system spare.inodes := by
      funext address
      simp only [total, inodeRefs, sameCwd]
    change Counted (total root _ spare.inodes) system.table
    rw [same]
    exact kept.inodes
  · intro g
    rw [sameSlots]
    exact kept.files g

/-- A process starts to run. -/
theorem start
    {inodes : Nat → Nat}
    {cwd : Nat}
    (kept : Kept root { spare with inodes := plus inodes cwd } system)
    (working : (system.procs this).cwd = cwd)
    (idle : this ∉ system.live) :
    Kept root
      { files := fun g =>
          spare.files g - slotCount g (system.procs this)
        inodes := inodes }
      { system with live := insert this system.live } := by
  subst working
  refine ⟨?_, ?_, kept.closed, kept.bounded, kept.pipes⟩
  · have same :
        total root { system with live := insert this system.live }
            inodes =
          total root system (plus inodes (system.procs this).cwd) := by
      funext address
      have moved :
          cwdRefs { system with live := insert this system.live }
              address =
            (if (system.procs this).cwd = address then 1 else 0) +
              cwdRefs system address :=
        Finset.sum_insert idle
      simp only [total, inodeRefs, moved, plus, eq_comm]
      omega
    change Counted (total root _ inodes) system.table
    rw [same]
    exact kept.inodes
  · intro g
    have before := kept.files g
    have moved :
        slots { system with live := insert this system.live } g =
          slotCount g (system.procs this) + slots system g :=
      Finset.sum_insert idle
    dsimp only at before ⊢
    omega

/-- A process stops to run, and its references become spare ones. -/
theorem leave
    (kept : Kept root spare system)
    (runs : this ∈ system.live) :
    Kept root
      { files := fun g =>
          spare.files g + slotCount g (system.procs this)
        inodes := plus spare.inodes (system.procs this).cwd }
      { system with live := system.live.erase this } := by
  refine ⟨?_, ?_, kept.closed, kept.bounded, kept.pipes⟩
  · have same :
        total root { system with live := system.live.erase this }
            (plus spare.inodes (system.procs this).cwd) =
          total root system spare.inodes := by
      funext address
      have moved :
          (if (system.procs this).cwd = address then 1 else 0) +
              cwdRefs { system with live := system.live.erase this }
                address =
            cwdRefs system address :=
        Finset.add_sum_erase system.live
          (fun proc =>
            if (system.procs proc).cwd = address then 1 else 0) runs
      simp only [total, inodeRefs, plus, eq_comm (a := address)]
      split_ifs at moved ⊢ <;> omega
    change Counted (total root _ _) system.table
    rw [same]
    exact kept.inodes
  · intro g
    have before := kept.files g
    have moved :
        slotCount g (system.procs this) +
            slots { system with live := system.live.erase this } g =
          slots system g :=
      Finset.add_sum_erase system.live
        (fun proc => slotCount g (system.procs proc)) runs
    dsimp only at before ⊢
    omega

end Procs

end Kept

/-! ## The system calls -/

section Programs

variable
    {sblock : SuperBlock}
    {env : Env}
    {root this : Nat}
    {spare : Spare}
    {system : System}
    {Value : Type}

theorem ensures_onTable
    {program : TableProgram Value}
    {post : Value → System → Prop}
    (inside :
      Ensures (fun _ => True) program system.table fun value table =>
        post value { system with table := table }) :
    Ensures (fun _ => True) (onTable program) system post := by
  unfold Ensures StateT.run at inside
  unfold Ensures onTable StateT.run
  dsimp only
  revert inside
  cases program system.table with
  | error stop => exact id
  | ok result => exact id

theorem ensures_getFile
    {f : Nat}
    {post : File → System → Prop} :
    Ensures (fun _ => True) (getFile f) system post ↔
      post (system.files f) system :=
  Iff.rfl

theorem ensures_setFile
    {f : Nat}
    {file : File}
    {post : Unit → System → Prop} :
    Ensures (fun _ => True) (setFile f file) system post ↔
      post ()
        { system with files := Function.update system.files f file } :=
  Iff.rfl

theorem ensures_setSlot
    {fd : Fin noFile}
    {slot : Option Nat}
    {post : Unit → System → Prop} :
    Ensures (fun _ => True) (setSlot this fd slot) system post ↔
      post ()
        { system with
          procs :=
            Function.update system.procs this
              { system.procs this with
                openfile :=
                  Function.update (system.procs this).openfile fd
                    slot } } :=
  Iff.rfl

/-- `file_alloc` gives out a file which nothing refers to. -/
theorem ensures_fileAlloc
    (kept : Kept root spare system)
    {post : Option Nat → System → Prop}
    (full : post none system)
    (found :
      ∀ f, f < nfile → (system.files f).ref = 0 →
        (system.files f).type = .none →
        Kept root (spare.addFile f 1)
          { system with
            files :=
              Function.update system.files f
                { system.files f with ref := 1 } } →
        post (some f)
          { system with
            files :=
              Function.update system.files f
                { system.files f with ref := 1 } }) :
    Ensures (fun _ => True) fileAlloc system post := by
  unfold fileAlloc
  rw [ensures_bind, ensures_get]
  cases search :
      (List.range' 0 nfile).find? fun f =>
        decide ((system.files f).ref = 0) with
  | none => exact full
  | some f =>
      have unused : (system.files f).ref = 0 := by
        simpa using List.find?_some search
      have below : f < nfile := by
        have member := List.mem_of_find?_eq_some search
        rw [List.mem_range'_1] at member
        omega
      have opened := kept.setRef below (show (1 : Int) ≠ 0 by decide)
      rw [unused, Int.sub_zero] at opened
      exact found f below unused (kept.closed f unused) opened

/-- `file_dup` -/
theorem ensures_fileDup
    (kept : Kept root spare system)
    {f : Nat}
    {post : Unit → System → Prop}
    (next :
      Kept root (spare.addFile f 1)
        { system with
          files :=
            Function.update system.files f
              { system.files f with
                ref := (system.files f).ref + 1 } } →
      post ()
        { system with
          files :=
            Function.update system.files f
              { system.files f with
                ref := (system.files f).ref + 1 } }) :
    Ensures (fun _ => True) (fileDup f) system post := by
  unfold fileDup
  rw [ensures_bind, ensures_getFile]
  refine ensures_ite (fun _ => trivial) ?_
  intro isOpen
  rw [ensures_setFile]
  apply next
  have below : f < nfile := kept.below_of_open (by omega)
  have raised :=
    kept.setRef below
      (show (system.files f).ref + 1 ≠ 0 by omega)
  have one :
      (system.files f).ref + 1 - (system.files f).ref = 1 := by omega
  rwa [one] at raised

/-- `file_close` gives one reference to the file back. -/
theorem ensures_fileClose
    (kept : Kept root spare system)
    {f : Nat} :
    Ensures (fun _ => True) (fileClose sblock env f) system
      fun _ target => Kept root (spare.addFile f (-1)) target := by
  unfold fileClose
  rw [ensures_bind, ensures_getFile]
  refine ensures_ite (fun _ => trivial) ?_
  intro isOpen
  have below : f < nfile := kept.below_of_open (by omega)
  refine ensures_ite ?_ ?_
  · intro others
    rw [ensures_setFile]
    have lowered :=
      kept.setRef below
        (show (system.files f).ref - 1 ≠ 0 by omega)
    have one :
        (system.files f).ref - 1 - (system.files f).ref = -1 := by omega
    rwa [one] at lowered
  · intro last
    have zero : (system.files f).ref - 1 = 0 := by omega
    rw [ensures_bind, ensures_setFile]
    let file : File :=
      { system.files f with
        ref := (system.files f).ref - 1
        type := .none }
    have one : file.ref - (system.files f).ref = -1 := by
      change (system.files f).ref - 1 - (system.files f).ref = -1
      omega
    have notPipe : file.type ≠ .pipe := by
      change FileType.none ≠ .pipe
      decide
    have notAfter :
        ∀ address, ¬ OpensInode address file := by
      rintro address ⟨isOpen, -, -⟩
      exact isOpen zero
    cases type : (system.files f).type with
    | none =>
        have closed :=
          kept.setFile below file spare.inodes ?_ (fun _ => rfl)
            (kept.pipes.update (type ▸ by decide)
              notPipe)
        · rw [one] at closed
          exact closed
        · intro address
          have notBefore : ¬ OpensInode address (system.files f) := by
            rintro ⟨-, isInode, -⟩
            rw [type] at isInode
            cases isInode
          rw [if_neg (notAfter address), if_neg notBefore]
    | inode =>
        have closed :
            Kept root
              ⟨(spare.addFile f (file.ref - (system.files f).ref)).files,
                plus spare.inodes (system.files f).object⟩
              { system with
                files := Function.update system.files f file } :=
          kept.dropInode (by omega) type zero rfl
        rw [one] at closed
        refine ensures_onTable ?_
        have counted := closed.inodes
        rw [← plus_total] at counted
        have put :
            Counts
              (plus
                (total root
                  { system with
                    files := Function.update system.files f file }
                  spare.inodes) (system.files f).object)
              (do
                beginOp env
                Inodes.put sblock (system.files f).object)
              fun _ =>
                total root
                  { system with
                    files := Function.update system.files f file }
                  spare.inodes :=
          counts_beginOp.bind fun _ => counts_put
        refine (put _ counted).mono ?_
        intro _ table recounted
        exact closed.setTable recounted
    | pipe =>
        let pi := (system.files f).object
        let pipe : Pipe :=
          if (system.files f).writable then
            { system.pipes pi with writeopen := false }
          else
            { system.pipes pi with readopen := false }
        have pipes :
            PipesKept (Function.update system.files f file)
              (Function.update system.pipes pi pipe)
              (if pipe.readopen = false ∧ pipe.writeopen = false then
                system.allocated.erase pi
              else
                system.allocated) :=
          kept.pipes.close
            (show IsEnd pi (system.files f).writable (system.files f)
              from ⟨type, rfl, rfl⟩)
            notPipe ?_ ?_
        · have closed :=
            kept.setFile below file spare.inodes ?_ (fun _ => rfl) pipes
          · rw [one] at closed
            exact closed
          · intro address
            have notBefore :
                ¬ OpensInode address (system.files f) := by
              rintro ⟨-, isInode, -⟩
              rw [type] at isInode
              cases isInode
            rw [if_neg (notAfter address), if_neg notBefore]
        · cases side : (system.files f).writable with
          | true => simp [pipe, side, endOpen]
          | false => simp [pipe, side, endOpen]
        · cases side : (system.files f).writable with
          | true => simp [pipe, side, endOpen]
          | false => simp [pipe, side, endOpen]

/-- `fdalloc` moves a reference into a descriptor. -/
theorem ensures_fdalloc
    (kept : Kept root spare system)
    (runs : this ∈ system.live)
    {f : Nat}
    {post : Option (Fin noFile) → System → Prop}
    (full :
      (∀ fd, (system.procs this).openfile fd ≠ none) →
        post none system)
    (found :
      ∀ fd, (system.procs this).openfile fd = none →
        Kept root (spare.addFile f (-1))
          { system with
            procs :=
              Function.update system.procs this
                { system.procs this with
                  openfile :=
                    Function.update (system.procs this).openfile fd
                      (some f) } } →
        post (some fd)
          { system with
            procs :=
              Function.update system.procs this
                { system.procs this with
                  openfile :=
                    Function.update (system.procs this).openfile fd
                      (some f) } }) :
    Ensures (fun _ => True) (fdalloc this f) system post := by
  unfold fdalloc
  rw [ensures_bind, ensures_get]
  dsimp only
  cases search :
      (List.finRange noFile).find? fun fd =>
        ((system.procs this).openfile fd).isNone with
  | none =>
      refine full fun fd unused => ?_
      have occupied := List.find?_eq_none.mp search fd (List.mem_finRange fd)
      simp [unused] at occupied
  | some fd =>
      have unused : (system.procs this).openfile fd = none := by
        simpa using List.find?_some search
      refine found fd unused ?_
      refine (kept.setSlot runs fd (some f)).congr (fun g => ?_)
        fun _ => rfl
      by_cases same : g = f
      · subst same
        simp [Spare.addFile, unused]
        omega
      · simp [Spare.addFile, unused, same, Ne.symm same]

/-- What `fd2file` returns. -/
def slotOf (proc : ProcFiles) (fd : Int) : Option Nat :=
  if inside : 0 ≤ fd ∧ fd < noFile then
    proc.openfile ⟨fd.toNat, toNat_lt_noFile inside⟩
  else
    none

theorem ensures_fd2file
    {fd : Int}
    {post : Option Nat → System → Prop} :
    Ensures (fun _ => True) (fd2file this fd) system post ↔
      post (slotOf (system.procs this) fd) system := by
  unfold fd2file slotOf
  split_ifs with inside
  · rfl
  · rfl

/-- `dup` -/
theorem ensures_dup
    (kept : Kept root spare system)
    (runs : this ∈ system.live)
    {fd : Int} :
    Ensures (fun _ => True) (dup this fd) system fun _ target =>
      Kept root spare target := by
  unfold dup
  rw [ensures_bind, ensures_fd2file]
  cases slotOf (system.procs this) fd with
  | none => exact kept
  | some f =>
      dsimp only
      rw [ensures_bind]
      refine ensures_fdalloc kept runs (fun _ => kept) ?_
      intro free _ lower
      dsimp only
      rw [ensures_bind]
      refine ensures_fileDup lower ?_
      intro raised
      refine raised.congr (fun g => ?_) fun _ => rfl
      simp only [Spare.addFile]
      split_ifs <;> omega

/-- `close` -/
theorem ensures_close
    (kept : Kept root spare system)
    (runs : this ∈ system.live)
    {fd : Int} :
    Ensures (fun _ => True) (close sblock env this fd) system
      fun _ target => Kept root spare target := by
  unfold close
  rw [ensures_bind, ensures_fd2file]
  by_cases inside : 0 ≤ fd ∧ fd < noFile
  · rw [dif_pos inside, ensures_bind, ensures_setSlot]
    have slot :
        slotOf (system.procs this) fd =
          (system.procs this).openfile ⟨fd.toNat, by omega⟩ :=
      dif_pos inside
    rw [slot]
    cases known : (system.procs this).openfile ⟨fd.toNat, by omega⟩ with
    | none => exact trivial
    | some f =>
        dsimp only
        rw [ensures_bind]
        have emptied := kept.setSlot runs ⟨fd.toNat, by omega⟩ none
        refine (ensures_fileClose emptied).mono ?_
        intro _ target closed
        refine closed.congr (fun g => ?_) fun _ => rfl
        by_cases same : g = f
        · subst same
          simp [Spare.addFile, known]
        · simp [Spare.addFile, known, same, Ne.symm same]
  · rw [dif_neg inside]
    exact trivial

/-- `inodes.unlock(ip)` and `inodes.put(&ctx, ip)` -/
theorem ensures_unlockPut
    {inodes : Nat → Nat}
    {ip : Nat}
    (kept : Kept root { spare with inodes := plus inodes ip } system) :
    Ensures (fun _ => True) (unlockPut sblock ip) system
      fun _ target => Kept root { spare with inodes := inodes } target := by
  refine ensures_onTable ?_
  have counted := kept.inodes
  rw [← plus_total] at counted
  have put :
      Counts (plus (total root system inodes) ip)
        (do
          Inodes.unlock ip
          Inodes.put sblock ip) fun _ => total root system inodes :=
    counts_unlock.bind fun _ => counts_put
  refine (put _ counted).mono ?_
  exact fun _ table recounted => kept.setTable recounted

/-- The part of `openat` after the inode is found. -/
theorem ensures_openFile
    {inodes : Nat → Nat}
    {ip : Nat}
    (kept : Kept root { spare with inodes := plus inodes ip } system)
    (runs : this ∈ system.live)
    {omode : BitVec 32} :
    Ensures (fun _ => True) (openFile sblock env this ip omode) system
      fun _ target => Kept root { spare with inodes := inodes } target := by
  unfold openFile
  rw [ensures_bind]
  refine ensures_fileAlloc kept ?_ ?_
  · dsimp only
    rw [ensures_bind]
    exact ensures_unlockPut kept
  · intro f below unused free allocated
    dsimp only
    rw [ensures_bind]
    refine ensures_fdalloc allocated runs ?_ ?_
    · intro _
      dsimp only
      rw [ensures_bind]
      refine (ensures_fileClose allocated).mono ?_
      intro _ target closed
      rw [ensures_bind]
      refine ensures_unlockPut (closed.congr (fun g => ?_) fun _ => rfl)
      simp only [Spare.addFile]
      split_ifs <;> omega
    · intro fd _ linked
      dsimp only
      have held :
          Kept root { spare with inodes := plus inodes ip } _ :=
        linked.congr (fun g => by
          simp only [Spare.addFile]
          split_ifs <;> omega) fun _ => rfl
      rw [ensures_bind]
      refine ensures_onTable ?_
      refine (counts_unlock _ held.inodes).mono ?_
      intro _ table counted
      have unlocked := held.setTable counted
      simp only [ensures_bind, ensures_getFile, ensures_setFile,
        ensures_pure]
      refine unlocked.openInode ?_ ?_ ?_ rfl rfl
      · simp
      · simpa using free
      · rfl

/-- `openat` -/
theorem ensures_openat
    (kept : Kept root spare system)
    (runs : this ∈ system.live)
    {dirfd : Int}
    {path : List UInt8}
    {omode : BitVec 32} :
    Ensures (fun _ => True) (openat sblock env this dirfd path omode)
      system fun _ target => Kept root spare target := by
  unfold openat
  refine ensures_ite (fun _ => kept) fun _ => ?_
  refine ensures_ite (fun _ => kept) fun _ => ?_
  rw [ensures_bind, ensures_get]
  dsimp only
  rw [ensures_bind]
  refine ensures_onTable ?_
  refine (counts_openInode (total_cwd_pos _ _ runs) _ kept.inodes).mono ?_
  intro found table counted
  cases found with
  | none => exact kept.setTable counted
  | some ip =>
      change Counted (plus _ ip) table at counted
      rw [plus_total] at counted
      exact ensures_openFile (kept.setTable counted) runs

/-- `chdir` -/
theorem ensures_chdir
    (kept : Kept root spare system)
    (runs : this ∈ system.live)
    {path : List UInt8} :
    Ensures (fun _ => True) (chdir sblock env this path) system
      fun _ target => Kept root spare target := by
  have before := plus_without root spare.inodes runs
  unfold chdir
  rw [ensures_bind, ensures_get]
  dsimp only
  rw [ensures_bind]
  refine ensures_onTable ?_
  have counted := kept.inodes
  rw [← before] at counted
  refine (counts_chdirTo _ counted).mono ?_
  intro found table recounted
  cases found with
  | none =>
      change Counted (plus _ (system.procs this).cwd) table at recounted
      rw [before] at recounted
      exact kept.setTable recounted
  | some ip => exact kept.setCwd runs before recounted

/-- `execve` -/
theorem ensures_execve
    (kept : Kept root spare system)
    (runs : this ∈ system.live)
    {path : List UInt8}
    {loads : Bool} :
    Ensures (fun _ => True)
      (onTable
        (execve sblock env (system.procs this).cwd path loads))
      system fun _ target => Kept root spare target := by
  refine ensures_onTable ?_
  refine (counts_execve (total_cwd_pos _ _ runs) _ kept.inodes).mono ?_
  exact fun _ table recounted => kept.setTable recounted

/-- The loop of `fork` over the descriptors of the parent. -/
theorem ensures_forkSlots
    {child : Nat}
    (kept :
      Kept root
        { spare with
          files := fun g =>
            spare.files g + slotCount g (system.procs child) } system)
    (different : this ≠ child)
    (idle : child ∉ system.live)
    (empty : ∀ fd, (system.procs child).openfile fd = none) :
    Ensures (fun _ => True)
      ((List.finRange noFile).foldlM
        (fun _ fd => forkSlot this child fd) ()) system
      fun _ target =>
        Kept root
            { spare with
              files := fun g =>
                spare.files g + slotCount g (target.procs child) }
            target ∧
          target.live = system.live ∧
          target.procs this = system.procs this := by
  refine Ensures.mono
    (ensures_foldlM
      (fun rest _ state =>
        Kept root
            { spare with
              files := fun g =>
                spare.files g + slotCount g (state.procs child) }
            state ∧
          state.live = system.live ∧
          state.procs this = system.procs this ∧ rest.Nodup ∧
          ∀ fd ∈ rest, (state.procs child).openfile fd = none) ?_ ?_) ?_
  · rintro fd rest _ state ⟨held, live, parent, nodup, free⟩
    rcases List.nodup_cons.mp nodup with ⟨notLater, nodupRest⟩
    have later :
        ∀ other ∈ rest, (state.procs child).openfile other = none :=
      fun other member => free other (List.mem_cons_of_mem _ member)
    unfold forkSlot
    rw [ensures_bind, ensures_get]
    cases slot : (state.procs this).openfile fd with
    | none => exact ⟨held, live, parent, nodupRest, later⟩
    | some f =>
        dsimp only
        rw [ensures_bind]
        refine ensures_fileDup held ?_
        intro raised
        rw [ensures_setSlot]
        refine ⟨?_, live, ?_, nodupRest, ?_⟩
        · have idleHere : child ∉ state.live := live ▸ idle
          refine (raised.setOther idleHere _).congr (fun g => ?_)
            fun _ => rfl
          have moved :=
            slotCount_update (state.procs child) fd (some f) g
          rw [free fd List.mem_cons_self] at moved
          simp only [Spare.addFile, Function.update_self]
          by_cases same : g = f
          · subst same
            simp only [if_true, reduceCtorEq, if_false] at moved
            rw [if_pos rfl]
            omega
          · simp only [Option.some.injEq, Ne.symm same, reduceCtorEq,
              if_false] at moved
            rw [if_neg same]
            omega
        · dsimp only
          rw [Function.update_of_ne different]
          exact parent
        · intro other member
          have apart : other ≠ fd := by
            rintro rfl
            exact notLater member
          dsimp only
          rw [Function.update_self]
          dsimp only
          rw [Function.update_of_ne apart]
          exact later other member
  · exact ⟨kept, rfl, rfl, List.nodup_finRange _, fun fd _ => empty fd⟩
  · rintro _ target ⟨held, live, parent, -, -⟩
    exact ⟨held, live, parent⟩

/-- `fork` after its loop: the child gets its working directory and runs. -/
theorem ensures_forkCwd
    {child cwd : Nat}
    (runs : this ∈ system.live)
    (idle : child ∉ system.live)
    (working : (system.procs this).cwd = cwd)
    (kept :
      Kept root
        { spare with
          files := fun g =>
            spare.files g + slotCount g (system.procs child) } system) :
    Ensures (fun _ => True)
      (do
        let cwd ← onTable (Inodes.share cwd)
        modify fun system : System =>
          { system with
            procs :=
              Function.update system.procs child
                { system.procs child with cwd := cwd }
            live := insert child system.live }
        return (child : Int)) system
      fun _ target => Kept root spare target := by
  subst working
  rw [ensures_bind]
  refine ensures_onTable ?_
  have positive := total_cwd_pos root spare.inodes runs
  refine (counts_share positive _ kept.inodes).mono ?_
  intro shared table counted
  rw [plus_total] at counted
  have taken := kept.setTable counted
  rw [ensures_bind, ensures_modify, ensures_pure]
  have placed :=
    taken.setOther idle { system.procs child with cwd := shared }
  have started :=
    placed.start
      (by
        dsimp only
        rw [Function.update_self]) idle
  refine started.congr (fun g => ?_) fun _ => rfl
  dsimp only
  rw [Function.update_self]
  change spare.files g =
    spare.files g + slotCount g (system.procs child) -
      slotCount g (system.procs child)
  omega

/-- The child of `fork` before it gets any file. -/
theorem Kept.blank
    (kept : Kept root spare system)
    {child : Nat}
    (idle : child ∉ system.live)
    {blank : System}
    (same :
      blank =
        { system with
          procs :=
            Function.update system.procs child
              { openfile := fun _ => none, cwd := 0 } }) :
    Kept root
      { spare with
        files := fun g =>
          spare.files g + slotCount g (blank.procs child) } blank := by
  subst same
  refine (kept.setOther idle _).congr (fun g => ?_) fun _ => rfl
  dsimp only
  rw [Function.update_self]
  simp [slotCount]

/-- `fork` -/
theorem ensures_fork
    (kept : Kept root spare system)
    (runs : this ∈ system.live)
    {child : Nat}
    (idle : child ∉ system.live) :
    Ensures (fun _ => True) (fork this child) system fun _ target =>
      Kept root spare target := by
  have different : this ≠ child := by
    rintro rfl
    exact idle runs
  unfold fork
  rw [ensures_bind, ensures_get, ensures_bind, ensures_modify,
    ensures_bind]
  generalize begun :
    ({ system with
      procs :=
        Function.update system.procs child
          { openfile := fun _ => none, cwd := 0 } } : System) = blank
  have sameLive : blank.live = system.live := by
    rw [← begun]
  have sameParent : blank.procs this = system.procs this := by
    rw [← begun]
    exact Function.update_of_ne different _ _
  have empty : ∀ fd, (blank.procs child).openfile fd = none := by
    intro fd
    rw [← begun]
    dsimp only
    rw [Function.update_self]
  refine (ensures_forkSlots (kept.blank idle begun.symm) different
    (sameLive ▸ idle) empty).mono ?_
  rintro _ middle ⟨held, live, parent⟩
  have runsStill : this ∈ middle.live := by
    rw [live, sameLive]
    exact runs
  have idleStill : child ∉ middle.live := by
    rw [live, sameLive]
    exact idle
  exact ensures_forkCwd runsStill idleStill
    (congrArg ProcFiles.cwd (parent.trans sameParent)) held

/-- `pipe_alloc` -/
theorem ensures_pipeAlloc
    (kept : Kept root spare system)
    {page : Option Nat}
    (fresh : ∀ pi ∈ page, pi ∉ system.allocated) :
    Ensures (fun _ => True) (pipeAlloc sblock env page) system
      fun ends target =>
        match ends with
        | none => Kept root spare target
        | some (rf, wf) =>
            Kept root ((spare.addFile rf 1).addFile wf 1) target ∧
              target.live = system.live := by
  unfold pipeAlloc
  rw [ensures_bind]
  refine ensures_fileAlloc kept kept ?_
  intro rf _ readerClosed readerFree first
  dsimp only
  rw [ensures_bind]
  refine ensures_fileAlloc first ?_ ?_
  · dsimp only
    rw [ensures_bind]
    refine (ensures_fileClose first).mono ?_
    intro _ target closed
    refine closed.congr (fun g => ?_) fun _ => rfl
    simp only [Spare.addFile]
    split_ifs <;> omega
  · intro wf _ writerClosed writerFree second
    have different : rf ≠ wf := by
      rintro rfl
      simp at writerClosed
    cases page with
    | none =>
        dsimp only
        rw [ensures_bind]
        refine (ensures_fileClose second).mono ?_
        intro _ middle closedReader
        rw [ensures_bind]
        refine (ensures_fileClose closedReader).mono ?_
        intro _ target closedWriter
        refine closedWriter.congr (fun g => ?_) fun _ => rfl
        simp only [Spare.addFile]
        split_ifs <;> omega
    | some pi =>
        simp only [ensures_bind, ensures_modify, ensures_getFile,
          ensures_setFile, ensures_pure]
        refine ⟨second.makePipe different ?_ ?_ ?_ ?_ ?_ ?_ ?_ ?_ ?_,
          trivial⟩
        · simp [Function.update_of_ne different]
        · simp
        · simpa [Function.update_of_ne different] using readerFree
        · simpa using writerFree
        · exact fresh pi rfl
        · rfl
        · rw [Function.update_of_ne different.symm]
        · exact ⟨rfl, rfl, rfl⟩
        · exact ⟨rfl, rfl, rfl⟩

/-- `pipe2` -/
theorem ensures_pipe2
    (kept : Kept root spare system)
    (runs : this ∈ system.live)
    {flags : Int}
    {page : Option Nat}
    (fresh : ∀ pi ∈ page, pi ∉ system.allocated) :
    Ensures (fun _ => True) (pipe2 sblock env this flags page) system
      fun _ target => Kept root spare target := by
  unfold pipe2
  refine ensures_ite (fun _ => kept) fun _ => ?_
  rw [ensures_bind]
  refine (ensures_pipeAlloc kept fresh).mono ?_
  intro ends start made
  cases ends with
  | none => exact made
  | some pair =>
      rcases pair with ⟨rf, wf⟩
      rcases made with ⟨held, live⟩
      have runsHere : this ∈ start.live := live ▸ runs
      -- Both files go, whatever the state they are in.
      have dropped :
          ∀ {others : Spare} {state : System}, Kept root others state →
            (∀ g,
              others.files g =
                ((spare.addFile rf 1).addFile wf 1).files g) →
            others.inodes = spare.inodes →
            Ensures (fun _ => True)
              (do
                fileClose sblock env rf
                fileClose sblock env wf
                return (-1 : Int)) state
              fun _ target => Kept root spare target := by
        intro others state holds files inodes
        rw [ensures_bind]
        refine (ensures_fileClose holds).mono ?_
        intro _ middle closedReader
        rw [ensures_bind]
        refine (ensures_fileClose closedReader).mono ?_
        intro _ target closedWriter
        refine closedWriter.congr (fun g => ?_) fun address => ?_
        · have here := files g
          simp only [Spare.addFile] at here ⊢
          split_ifs at here ⊢ <;> omega
        · exact (congrFun inodes address).symm
      dsimp only
      rw [ensures_bind]
      refine ensures_fdalloc held runsHere ?_ ?_
      · intro full
        rw [ensures_bind]
        refine ensures_fdalloc held runsHere ?_ ?_
        · exact fun _ => dropped held (fun _ => rfl) rfl
        · intro wfd unused _
          exact absurd unused (full wfd)
      · intro rfd unused linked
        rw [ensures_bind]
        refine ensures_fdalloc linked runsHere ?_ ?_
        · intro _
          dsimp only
          rw [ensures_bind, ensures_setSlot]
          refine dropped (linked.setSlot runsHere rfd none)
            (fun g => ?_) rfl
          simp only [Function.update_self, Spare.addFile,
            Option.some.injEq, reduceCtorEq, if_false]
          by_cases same : g = rf
          · rw [if_pos same, if_pos same.symm, if_pos same]
            omega
          · rw [if_neg same, if_neg (Ne.symm same), if_neg same]
            omega
        · intro wfd _ both
          refine both.congr (fun g => ?_) fun _ => rfl
          simp only [Spare.addFile]
          split_ifs <;> omega

end Programs

end FudanOS.Kernel.FileRefs
