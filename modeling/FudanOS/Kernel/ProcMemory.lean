import FudanOS.Aarch64.Mmu
import FudanOS.Library.Programs
import FudanOS.Library.Runs

/-!
# The memory of processes

The functions which take pages from `kalloc_page` for a process and give them
back: `init_proc`, `fork`, `exit` and `wait` of `kernel/proc.c`, `get_pte`,
`init_pgdir`, `free_pgdir` and `copyout` of `kernel/pt.c`, `sbrk` and
`pgfault_handler` of `kernel/paging.c`, and `execve` of `kernel/exec.c`.

A page is its number `K2P(page) / PAGE_SIZE`.  Of the contents of the pages
only the entries of page tables are kept.  All entries which the kernel writes
are 0, or have `PTE_VALID` and no `PTE_RO`, and no section ever gets the flag
`ST_SWAP`; an entry is therefore 0, or a page, or what `K2P(NULL)` gives.
Where the queue of free pages is empty, or an address which stems from `NULL`
is used, the kernel stops.

A process is its number in the order of creation.  Files, registers and the
scheduler are left out; so is what `execve` reads from the file, of which only
the segments and the lengths of the strings matter here.
-/

namespace FudanOS.Kernel.ProcMemory

open FudanOS.Aarch64.Mmu
open FudanOS.Library.Programs
open FudanOS.Library.Runs

/-! ## Pages -/

inductive Entry where
  | zero
  /-- The entry is valid and leads to a page. -/
  | page (number : Nat)
  /-- `K2P(NULL) | PTE_USER_DATA` -/
  | null
  deriving DecidableEq

structure Memory where
  /-- The queue of the free pages. -/
  pages : List Nat
  refpage : Nat → Int
  kallocPageCnt : Int
  pagenum : Int
  /-- The entries of the pages which are used as tables. -/
  entries : Nat → Nat → Entry
  /-- The process for which `kalloc_page` has last returned the page. -/
  allocatedFor : Nat → Option Nat

/-- A function of the kernel, which may stop it. -/
abbrev Action := Program Memory Unit

/-- `kalloc_page`, called on behalf of a process or for the heap -/
def kallocPage (proc : Option Nat) : Action Nat := do
  let memory ← get
  match memory.pages with
  | [] => throw ()
  | page :: rest =>
      set
        { memory with
          pages := rest
          refpage :=
            Function.update memory.refpage page (memory.refpage page + 1)
          kallocPageCnt := memory.kallocPageCnt + 1
          allocatedFor := Function.update memory.allocatedFor page proc }
      return page

/-- The count of the page is decremented. -/
def Memory.decrement (memory : Memory) (page : Nat) : Memory :=
  { memory with
    refpage := Function.update memory.refpage page (memory.refpage page - 1) }

/-- `decrement_rc(&kalloc_page_cnt)` and `add_to_queue` -/
def Memory.giveBack (memory : Memory) (page : Nat) : Memory :=
  { memory with
    pages := page :: memory.pages
    kallocPageCnt := memory.kallocPageCnt - 1 }

/-- `kfree_page` -/
def kfreePage (page : Nat) : Action Unit := do
  modify fun memory => memory.decrement page
  let memory ← get
  if memory.refpage page = 0 then
    set (memory.giveBack page)

/-- `left_page_cnt()` -/
def leftPageCnt (memory : Memory) : Int :=
  (memory.pagenum - memory.kallocPageCnt) % 2 ^ 64

/-- `user_page_alloc`, where `none` stands for `NULL` -/
def userPageAlloc (proc : Nat) : Action (Option Nat) := do
  let memory ← get
  if leftPageCnt memory ≤ 1024 then
    return none
  else do
    let page ← kallocPage (some proc)
    return some page

/-! ## Page tables -/

/-- The entry `index` of the table `pt` is written. -/
def Memory.store (memory : Memory) (pt index : Nat) (entry : Entry) :
    Memory :=
  { memory with
    entries :=
      Function.update memory.entries pt
        (Function.update (memory.entries pt) index entry) }

/-- `memset` of the page to 0 -/
def Memory.clear (memory : Memory) (page : Nat) : Memory :=
  { memory with
    entries := Function.update memory.entries page fun _ => .zero }

def store (pt index : Nat) (entry : Entry) : Action Unit :=
  modify fun memory => memory.store pt index entry

/-- `kalloc_page`, and `memset` of the page to 0 -/
def newTable (proc : Nat) : Action Nat := do
  let page ← kallocPage (some proc)
  modify fun memory => memory.clear page
  return page

/-- `struct pgdir`, with the end of its only section -/
structure Pgdir where
  pt : Option Nat
  heapEnd : Word

/-- `init_pgdir` -/
def initPgdir (proc : Nat) : Action Pgdir := do
  let page ← newTable proc
  return { pt := some page, heapEnd := 0 }

/-- The step from a table to the next one, which `get_pte` makes three times. -/
def nextTable (proc pt index : Nat) (alloc : Bool) :
    Action (Option Nat) := do
  let memory ← get
  match memory.entries pt index with
  | .page table => return some table
  | .null => throw ()
  | .zero =>
      if alloc then do
        let page ← newTable proc
        store pt index (.page page)
        return some page
      else
        return none

/-- The first table of the directory, as `get_pte` finds or makes it. -/
def rootTable (proc : Nat) (pgdir : Pgdir) (alloc : Bool) :
    Action (Option Nat × Pgdir) :=
  match pgdir.pt with
  | some pt0 => return (some pt0, pgdir)
  | none =>
      if alloc then do
        let page ← newTable proc
        return (some page, { pgdir with pt := some page })
      else
        return (none, pgdir)

/-- The table of the last level, from the table `pt0` on. -/
def lastTable (proc pt0 : Nat) (va : Word) (alloc : Bool) :
    Action (Option Nat) := do
  let some pt1 ← nextTable proc pt0 (vaPart0 va).toNat alloc
    | return none
  let some pt2 ← nextTable proc pt1 (vaPart1 va).toNat alloc
    | return none
  nextTable proc pt2 (vaPart2 va).toNat alloc

/-- `get_pte`; an entry is given by its table, and its index is `vaPart3`. -/
def getPte (proc : Nat) (pgdir : Pgdir) (va : Word) (alloc : Bool) :
    Action (Option Nat × Pgdir) := do
  let (pt0, pgdir) ← rootTable proc pgdir alloc
  let some pt0 := pt0 | return (none, pgdir)
  let pt3 ← lastTable proc pt0 va alloc
  return (pt3, pgdir)

/-- `*get_pte(pgdir, va, true) = K2P(page) | PTE_USER_DATA` -/
def mapPage (proc : Nat) (pgdir : Pgdir) (va : Word) (page : Nat) :
    Action Pgdir := do
  let (pte, pgdir) ← getPte proc pgdir va true
  let some pt := pte | throw ()
  store pt (vaPart3 va).toNat (.page page)
  return pgdir

/--
`free_pt_pages`, where `levels` is 3 less the argument `deep`.  The loop is
over the entries of the table.
-/
def freePtPages : Nat → Nat → Action Unit
  | 0, p => kfreePage p
  | levels + 1, p => do
      (List.range 512).foldlM
        (fun _ i => do
          let memory ← get
          match memory.entries p i with
          | .zero => return ()
          | .null => throw ()
          | .page nextLevel => do
              freePtPages levels nextLevel
              store p i .zero)
        ()
      kfreePage p

/-- `free_pgdir`; the caller forgets the table. -/
def freePgdir (pgdir : Pgdir) : Action Unit :=
  match pgdir.pt with
  | none => return ()
  | some pt => freePtPages 3 pt

/-! ## Faults, the heap and new programs -/

/-- `pgfault_handler` at the address `addr` -/
def pgfaultHandler (proc : Nat) (pgdir : Pgdir) (addr : Word) :
    Action Pgdir := do
  let (pte, pgdir) ← getPte proc pgdir addr true
  let some pt := pte | throw ()
  let memory ← get
  match memory.entries pt (vaPart3 addr).toNat with
  | .zero => do
      let page ← userPageAlloc proc
      store pt (vaPart3 addr).toNat (page.elim .null .page)
      return pgdir
  | .page _ => return pgdir
  | .null => return pgdir

/-- The body of the loop of `sbrk`, which gives back the page at `va`. -/
def releasePage (proc : Nat) (pgdir : Pgdir) (va : Word) :
    Action Unit := do
  let (pte, _) ← getPte proc pgdir va false
  match pte with
  | none => return ()
  | some pt => do
      let memory ← get
      match memory.entries pt (vaPart3 va).toNat with
      | .zero => return ()
      | .null => throw ()
      | .page number => do
          kfreePage number
          store pt (vaPart3 va).toNat .zero

/-- `sbrk` -/
def sbrk (proc : Nat) (pgdir : Pgdir) (size : Int) : Action Pgdir := do
  let heapEnd := pgdir.heapEnd + BitVec.ofInt 64 (size * pageSize)
  (List.range (-size).toNat).foldlM
    (fun _ i =>
      releasePage proc pgdir (heapEnd + BitVec.ofNat 64 (i * pageSize)))
    ()
  return { pgdir with heapEnd := heapEnd }

/--
The loop of `allocuvm` from the address `a` on.  Every round takes a page, so
the number of the free pages bounds the rounds.
-/
def allocuvmLoop (proc : Nat) (newsz : Word) :
    Nat → Pgdir → Word → Action Pgdir
  | 0, pgdir, a => if a < newsz then throw () else return pgdir
  | rounds + 1, pgdir, a =>
      if a < newsz then do
        let page ← kallocPage (some proc)
        let pgdir ← mapPage proc pgdir a page
        allocuvmLoop proc newsz rounds pgdir (a + BitVec.ofNat 64 pageSize)
      else
        return pgdir

/-- `allocuvm`, whose result is an `int` -/
def allocuvm (proc : Nat) (pgdir : Pgdir) (oldsz newsz : Word) :
    Action (Word × Pgdir) := do
  let memory ← get
  let a := (oldsz + 4095) / 4096 * 4096
  let pgdir ← allocuvmLoop proc newsz memory.pages.length pgdir a
  return ((newsz.setWidth 32).signExtend 64, pgdir)

/-- The loop of `copyout`; a round copies at least one byte. -/
def copyoutLoop (proc : Nat) :
    Nat → Pgdir → Word → Nat → Action Pgdir
  | 0, pgdir, _, _ => return pgdir
  | rounds + 1, pgdir, va, len =>
      if len = 0 then
        return pgdir
      else do
        let (pte, pgdir) ← getPte proc pgdir va true
        let some pt := pte | throw ()
        let memory ← get
        if memory.entries pt (vaPart3 va).toNat = .zero then do
          let page ← kallocPage (some proc)
          store pt (vaPart3 va).toNat (.page page)
        let n := min len (pageSize - va.toNat % pageSize)
        copyoutLoop proc rounds pgdir (va + BitVec.ofNat 64 n) (len - n)

/-- `USERTOP` -/
def userTop : Nat := 0x0001000000000000

/-- `copyout` of `len` bytes to `va`, whose result `execve` ignores -/
def copyout (proc : Nat) (pgdir : Pgdir) (va : Word) (len : Nat) :
    Action Pgdir :=
  if userTop < (va + BitVec.ofNat 64 len).toNat then
    return pgdir
  else
    copyoutLoop proc len pgdir va len

/-- What `execve` reads: `PT_LOAD` segments, and lengths of the strings. -/
structure Image where
  /-- `p_vaddr` and `p_memsz` -/
  segments : List (Word × Word)
  /-- The lengths with the final 0, of `argv` and of `envp`. -/
  argv : List Nat
  envp : List Nat

/-- The loop of `execve` over the segments; `sz` is not set at the first one. -/
def loadSegments (proc : Nat) (pgdir : Pgdir) (segments : List (Word × Word)) :
    Action Pgdir := do
  let (pgdir, _) ←
    segments.foldlM
      (fun (pgdir, sz) (vaddr, memsz) => do
        if vaddr + memsz < vaddr then
          throw ()
        if sz = none ∧ vaddr % 4096 ≠ 0 then
          throw ()
        let (sz, pgdir) ←
          allocuvm proc pgdir (Option.getD sz vaddr) (vaddr + memsz)
        if sz = 0 then
          throw ()
        return (pgdir, some sz))
      (pgdir, (none : Option Word))
  return pgdir

/-- The loops of `execve` which push strings. -/
def pushStrings (proc : Nat) (pgdir : Pgdir) (sp : Word) (lens : List Nat) :
    Action (Pgdir × Word) :=
  lens.foldlM
    (fun (pgdir, sp) len => do
      let sp := sp - BitVec.ofNat 64 len
      let pgdir ← copyout proc pgdir sp len
      return (pgdir, sp))
    (pgdir, sp)

/-- The stack which `execve` makes, with room for `argv` and `envp`. -/
def makeStack (proc : Nat) (pgdir : Pgdir) (image : Image) :
    Action Pgdir := do
  let argv := image.argv.take 10
  let envp := image.envp.take 10
  let top : Word := BitVec.ofNat 64 userTop
  let (pgdir, sp) ← pushStrings proc pgdir top (argv ++ envp)
  let slots := BitVec.ofNat 64 ((envp.length + argv.length + 4) * 8)
  let newsp : Word := (sp - slots) / 16 * 16
  let pgdir ← copyout proc pgdir newsp (sp - newsp).toNat
  let stksz : Word := (top - newsp + 40959) / 40960 * 40960
  copyout proc pgdir (top - stksz) (stksz - (top - newsp)).toNat

/-- `execve`; `none` when it takes one of the ways to `bad`. -/
def execve (proc : Nat) (pgdir : Pgdir) (image : Option Image) :
    Action Pgdir := do
  let new ← initPgdir proc
  match image with
  | none => do
      freePgdir new
      return pgdir
  | some image => do
      let new ← loadSegments proc new image.segments
      let new ← makeStack proc new image
      freePgdir pgdir
      return new

/-! ## Processes -/

structure Proc where
  kstack : Nat
  pgdir : Pgdir
  parent : Option Nat
  zombie : Bool

/-- `init_proc` -/
def initProc (proc : Nat) : Action Proc := do
  let kstack ← kallocPage (some proc)
  let pgdir ← initPgdir proc
  return { kstack := kstack, pgdir := pgdir, parent := none, zombie := false }

/--
The loops of `fork` over the tables of the parent, from a table `pgt` with
`levels` levels below it; `va` has the indices of the levels above.
-/
def copyTables (proc : Nat) :
    Nat → Nat → Word → Pgdir → Action Pgdir
  | 0, pgt, va, temp =>
      (List.range 512).foldlM
        (fun temp i => do
          let memory ← get
          if memory.entries pgt i = .zero then
            return temp
          else do
            let np ← kallocPage (some proc)
            mapPage proc temp (va ||| BitVec.ofNat 64 i <<< 12) np)
        temp
  | levels + 1, pgt, va, temp =>
      (List.range 512).foldlM
        (fun temp i => do
          let memory ← get
          match memory.entries pgt i with
          | .zero => return temp
          | .null => throw ()
          | .page table =>
              copyTables proc levels table
                (va ||| BitVec.ofNat 64 i <<< (12 + 9 * (levels + 1))) temp)
        temp

/-- `fork` in the process `parent`, when the child gets the number `proc` -/
def forkProc (proc parent : Nat) (parentDir : Pgdir) : Action Proc := do
  let child ← initProc proc
  let temp ← initPgdir proc
  let temp ←
    match parentDir.pt with
    | some pt => copyTables proc 3 pt 0 temp
    | none => throw ()
  return { child with pgdir := temp, parent := some parent }

structure State where
  memory : Memory
  procs : Nat → Option Proc
  /-- The number of processes which have been created. -/
  created : Nat

/-- `&root_proc` -/
def rootProc : Nat := 0

inductive Label where
  | fork (parent child : Nat)
  | pgfault (proc : Nat) (addr : Word)
  | sbrk (proc : Nat) (size : Int)
  | execve (proc : Nat) (image : Option Image)
  | exit (proc : Nat)
  /-- `wait` in `parent` when it finds the zombie `child` -/
  | wait (parent child : Nat)
  /-- `kalloc` takes a page for its heap. -/
  | grow

/-- The process, if it is there and has not exited. -/
def State.running (state : State) (proc : Nat) : Except Unit Proc :=
  match state.procs proc with
  | some this => if this.zombie then .error () else .ok this
  | none => .error ()

def State.setProc (state : State) (proc : Nat) (this : Option Proc) : State :=
  { state with procs := Function.update state.procs proc this }

/-- A function which changes the page directory of a process is called. -/
def State.onPgdir (state : State) (proc : Nat)
    (action : Pgdir → Action Pgdir) : Except Unit State := do
  let this ← state.running proc
  let (pgdir, memory) ← (action this.pgdir).run state.memory
  return { state with memory := memory }.setProc proc
    (some { this with pgdir := pgdir })

def fork (state : State) (parent : Nat) : Except Unit State := do
  let this ← state.running parent
  let (child, memory) ←
    (forkProc state.created parent this.pgdir).run state.memory
  let state := { state with memory := memory }.setProc state.created child
  return { state with created := state.created + 1 }

/-- The children of a process which exits get `root_proc` as parent. -/
def reparent (proc : Nat) (child : Proc) : Proc :=
  if child.parent = some proc then
    { child with parent := some rootProc }
  else
    child

def exit (state : State) (proc : Nat) : Except Unit State := do
  let this ← state.running proc
  let ((), memory) ← (freePgdir this.pgdir).run state.memory
  let state :=
    { state with
      memory := memory
      procs := fun other => (state.procs other).map (reparent proc) }
  return state.setProc proc
    (some { this with pgdir := { this.pgdir with pt := none }, zombie := true })

def wait (state : State) (parent child : Nat) : Except Unit State := do
  let _ ← state.running parent
  match state.procs child with
  | some zombie =>
      if zombie.zombie ∧ zombie.parent = some parent then do
        let ((), memory) ← (kfreePage zombie.kstack).run state.memory
        return { state with memory := memory }.setProc child none
      else
        .error ()
  | none => .error ()

def step (state : State) : Label → Except Unit State
  | .fork parent child =>
      if child = state.created then fork state parent else .error ()
  | .pgfault proc addr =>
      state.onPgdir proc fun pgdir => pgfaultHandler proc pgdir addr
  | .sbrk proc size => state.onPgdir proc fun pgdir => sbrk proc pgdir size
  | .execve proc image =>
      state.onPgdir proc fun pgdir => execve proc pgdir image
  | .exit proc => exit state proc
  | .wait parent child => wait state parent child
  | .grow => do
      let (_, memory) ← (kallocPage none).run state.memory
      return { state with memory := memory }

/-- The root process runs `kernel_entry` and makes no calls. -/
def Allowed (_ : State) : Label → Prop
  | .fork parent _ => parent ≠ rootProc
  | .pgfault proc _ => proc ≠ rootProc
  | .sbrk proc _ => proc ≠ rootProc
  | .execve proc _ => proc ≠ rootProc
  | .exit proc => proc ≠ rootProc
  | .wait parent _ => parent ≠ rootProc
  | .grow => True

instance (state : State) : (label : Label) → Decidable (Allowed state label)
  | .fork _ _ | .pgfault _ _ | .sbrk _ _ | .execve _ _ | .exit _ |
    .wait _ _ => inferInstanceAs (Decidable (_ ≠ _))
  | .grow => inferInstanceAs (Decidable True)

/-! ## The start -/

/-- The memory when `pages` are free. -/
def freshMemory (pages : List Nat) : Memory where
  pages := pages
  refpage := fun _ => 0
  kallocPageCnt := 0
  pagenum := pages.length
  entries := fun _ _ => .zero
  allocatedFor := fun _ => none

/-- The body of the loop of `kernel_entry` over the pages of `icode`. -/
def mapIcodePage (proc : Nat) (mapped : Pgdir × Word) (page : Nat) :
    Action (Pgdir × Word) := do
  let pgdir ← mapPage proc mapped.1 mapped.2 page
  return (pgdir, mapped.2 + BitVec.ofNat 64 pageSize)

/-- `kernel_entry` maps the pages of `icode` into the first user process. -/
def mapIcode (proc : Nat) (pgdir : Pgdir) (icode : List Nat) :
    Action Pgdir := do
  let mapped ← icode.foldlM (mapIcodePage proc) (pgdir, 0x400000)
  return mapped.1

/-- `init_kproc`, and the first process of `kernel_entry` -/
def bootProcs (icode : List Nat) : Action (Proc × Proc) := do
  let root ← initProc rootProc
  let first ← initProc 1
  let pgdir ← mapIcode 1 first.pgdir icode
  let root := { root with parent := some rootProc }
  let first := { first with pgdir := pgdir, parent := some rootProc }
  return (root, first)

/-- The state in which the first user process starts. -/
def boot (pages icode : List Nat) : Except Unit State := do
  let ((root, first), memory) ← (bootProcs icode).run (freshMemory pages)
  let procs : Nat → Option Proc
    | 0 => some root
    | 1 => some first
    | _ => none
  return { memory := memory, procs := procs, created := 2 }

/-! ## The property -/

/-- The pages which were last allocated for the process are free. -/
def Returned (memory : Memory) (proc : Nat) : Prop :=
  ∀ page, memory.allocatedFor page = some proc → page ∈ memory.pages

end FudanOS.Kernel.ProcMemory
