import FudanOS.Kernel.ProcMemory
import FudanOS.Kernel.Pages
import FudanOS.Library.LittleEndian
import FudanOS.Library.Overlay
import Mathlib.Data.Set.Image
import Mathlib.Data.Set.Lattice

/-!
# The bytes of new pages

`kalloc_page` hands out pages with the bytes which their last user has left in
them.  This module follows the bytes of the pages which `pgfault_handler`,
`allocuvm`, `copyout` and `execve` map for a process, from the free queue to
the return to the process.

A page table is the map from the bits 12 to 47 of an address to an entry which
`page_table_is_map` shows it to be; its own pages are still taken from the
queue and set to 0.  The counts `refpage` are left out, and so is what
`free_pgdir` gives back at the end of `execve`, since no page is taken after
it.  The kernel stops where it does in `ProcMemory`, and also where it writes
through an address from `USERTOP` on, which is none of the process.
-/

namespace FudanOS.Kernel.PageBytes

open FudanOS.Aarch64.Mmu
open FudanOS.Library.Overlay
open FudanOS.Library.Programs
open FudanOS.Kernel.ProcMemory (Entry userTop)

/-! ## Pages -/

structure Queue where
  /-- The queue of the free pages. -/
  pages : List Nat
  kallocPageCnt : Int
  pagenum : Int

/-- The bytes are addressed by the number of the page and the offset. -/
abbrev Memory := Store Queue (Nat × Nat) UInt8

abbrev Action := Program Memory Unit

def kallocPage : Action Nat := do
  let queue ← control
  match queue.pages with
  | [] => throw ()
  | page :: rest => do
      setControl
        { queue with
          pages := rest
          kallocPageCnt := queue.kallocPageCnt + 1 }
      return page

/-- `left_page_cnt()` -/
def leftPageCnt (queue : Queue) : Int :=
  (queue.pagenum - queue.kallocPageCnt) % 2 ^ 64

/-- `user_page_alloc`, where `none` stands for `NULL` -/
def userPageAlloc : Action (Option Nat) := do
  let queue ← control
  if leftPageCnt queue ≤ 1024 then
    return none
  else do
    let page ← kallocPage
    return some page

/-- The bytes of a page from an offset on are replaced. -/
def piece (page offset : Nat) (bytes : List UInt8) (location : Nat × Nat) :
    Option UInt8 :=
  if location.1 = page ∧ offset ≤ location.2 then
    bytes[location.2 - offset]?
  else
    none

/-- `memmove` or `memset` within a page -/
def store (page offset : Nat) (bytes : List UInt8) : Action Unit :=
  write (piece page offset bytes)

/-! ## Page tables -/

/-- The bits of an address which the page table translates. -/
def location (va : Word) : Nat :=
  va.toNat % 2 ^ 48

/-- `VA_PART0` to `VA_PART3` together -/
def vpn (va : Word) : Nat :=
  location va / pageSize

/-- What the tables above `level` select of the addresses. -/
def branch (va : Word) (level : Nat) : Nat :=
  vpn va / 512 ^ (4 - level)

structure Pgdir where
  /-- Whether the table of a level and a branch is there; level 0 is `pt`. -/
  table : Nat → Nat → Bool
  /-- The entries of the last level, where a missing table has 0. -/
  entry : Nat → Entry

def Pgdir.addTable (pgdir : Pgdir) (level index : Nat) : Pgdir :=
  { pgdir with
    table :=
      Function.update pgdir.table level
        (Function.update (pgdir.table level) index true) }

def Pgdir.setEntry (pgdir : Pgdir) (index : Nat) (entry : Entry) : Pgdir :=
  { pgdir with entry := Function.update pgdir.entry index entry }

/-- `kalloc_page`, and `memset` of the page to 0 -/
def newTable : Action Unit := do
  let page ← kallocPage
  store page 0 (List.replicate pageSize 0)

/-- The part of `get_pte` which finds or makes the table of a level. -/
def makeTable (va : Word) (pgdir : Pgdir) (level : Nat) : Action Pgdir :=
  if pgdir.table level (branch va level) then
    return pgdir
  else do
    newTable
    return pgdir.addTable level (branch va level)

/-- `get_pte` with `alloc`; the entry is `pgdir.entry (vpn va)`. -/
def getPte (pgdir : Pgdir) (va : Word) : Action Pgdir :=
  [0, 1, 2, 3].foldlM (makeTable va) pgdir

/-- `init_pgdir` -/
def initPgdir : Action Pgdir := do
  newTable
  return { table := fun level _ => level = 0, entry := fun _ => .zero }

/-- `pgfault_handler` at the address `addr` -/
def pgfaultHandler (pgdir : Pgdir) (addr : Word) : Action Pgdir := do
  let pgdir ← getPte pgdir addr
  match pgdir.entry (vpn addr) with
  | .zero => do
      let page ← userPageAlloc
      return pgdir.setEntry (vpn addr) (page.elim .null .page)
  | .page _ => return pgdir
  | .null => return pgdir

/-! ## Bytes which the kernel writes for a process -/

/-- The page of an address through which the kernel writes, after a fault. -/
def faultIn (pgdir : Pgdir) (va : Word) : Action (Nat × Pgdir) :=
  match pgdir.entry (vpn va) with
  | .page page => return (page, pgdir)
  | .null => throw ()
  | .zero => do
      let pgdir ← pgfaultHandler pgdir va
      match pgdir.entry (vpn va) with
      | .page page => return (page, pgdir)
      | .null => throw ()
      | .zero => throw ()

/-- One byte is written through an address of the process. -/
def storeByte (pgdir : Pgdir) (va : Word) (byte : UInt8) : Action Pgdir :=
  if userTop ≤ va.toNat then
    throw ()
  else do
    let (page, pgdir) ← faultIn pgdir va
    store page (va.toNat % pageSize) [byte]
    return pgdir

/-- `memcpy` or `memset` to addresses of the process -/
def storeBytes : Pgdir → Word → List UInt8 → Action Pgdir
  | pgdir, _, [] => return pgdir
  | pgdir, va, byte :: bytes => do
      let pgdir ← storeByte pgdir va byte
      storeBytes pgdir (va + 1) bytes

/-- The page which a round of `copyout` finds or maps. -/
def copyoutPage (pgdir : Pgdir) (va : Word) : Action (Nat × Pgdir) := do
  let pgdir ← getPte pgdir va
  match pgdir.entry (vpn va) with
  | .page page => return (page, pgdir)
  | .null => throw ()
  | .zero => do
      let page ← kallocPage
      return (page, pgdir.setEntry (vpn va) (.page page))

/-- The loop of `copyout`; a round copies at least one byte. -/
def copyoutLoop : Nat → Pgdir → Word → List UInt8 → Action Pgdir
  | 0, pgdir, _, _ => return pgdir
  | rounds + 1, pgdir, va, bytes =>
      if bytes.length = 0 then
        return pgdir
      else do
        let pgoff := va.toNat % pageSize
        let (page, pgdir) ← copyoutPage pgdir va
        let n := min bytes.length (pageSize - pgoff)
        store page pgoff (bytes.take n)
        copyoutLoop rounds pgdir (va + BitVec.ofNat 64 n) (bytes.drop n)

/--
`copyout`, whose result `execve` ignores.  Instead of `p` and `len` it gets
the bytes, which are 0 if `p` is `NULL`.
-/
def copyout (pgdir : Pgdir) (va : Word) (bytes : List UInt8) :
    Action Pgdir :=
  if userTop < (va + BitVec.ofNat 64 bytes.length).toNat then
    return pgdir
  else
    copyoutLoop bytes.length pgdir va bytes

/-! ## New programs -/

/--
The loop of `allocuvm` from the address `a` on.  Every round takes a page, so
the number of the free pages bounds the rounds.
-/
def allocuvmLoop (newsz : Word) : Nat → Pgdir → Word → Action Pgdir
  | 0, pgdir, a => if a < newsz then throw () else return pgdir
  | rounds + 1, pgdir, a =>
      if a < newsz then do
        let page ← kallocPage
        let pgdir ← getPte pgdir a
        allocuvmLoop newsz rounds
          (pgdir.setEntry (vpn a) (.page page))
          (a + BitVec.ofNat 64 pageSize)
      else
        return pgdir

/-- The first page from an address on -/
def roundUp (size : Word) : Word :=
  (size + 4095) / 4096 * 4096

/-- The result of `allocuvm`, which is an `int` -/
def asInt (size : Word) : Word :=
  (size.setWidth 32).signExtend 64

def allocuvm (pgdir : Pgdir) (oldsz newsz : Word) :
    Action (Word × Pgdir) := do
  let queue ← control
  let pgdir ←
    allocuvmLoop newsz queue.pages.length pgdir (roundUp oldsz)
  return (asInt newsz, pgdir)

/-- A `PT_LOAD` segment, with the `p_filesz` bytes which the file has for it -/
structure Segment where
  vaddr : Word
  memsz : Word
  data : List UInt8

/--
A string of `argv` or `envp` without its final 0.  It lies in memory which the
process can read, and so is shorter than the memory.
-/
structure Text where
  bytes : List UInt8
  nonzero : 0 ∉ bytes
  short : bytes.length < Pages.physPages * pageSize

/-- The bytes which `strlen(…) + 1` counts. -/
def Text.stored (text : Text) : List UInt8 :=
  text.bytes ++ [0]

/-- What `execve` reads from the file and from the old memory. -/
structure Image where
  segments : List Segment
  argv : List Text
  envp : List Text

/-- The body of the loop of `execve`; `sz` is not set at the first segment. -/
def loadSegment (loaded : Pgdir × Option Word) (segment : Segment) :
    Action (Pgdir × Option Word) := do
  let newsz := segment.vaddr + segment.memsz
  if segment.memsz.toNat < segment.data.length ∨ newsz < segment.vaddr then
    throw ()
  else if loaded.2 = none ∧ segment.vaddr % 4096 ≠ 0 then
    throw ()
  else do
    let (sz, pgdir) ←
      allocuvm loaded.1 (loaded.2.getD segment.vaddr) newsz
    if sz = 0 then
      throw ()
    else do
      let pgdir ← storeBytes pgdir segment.vaddr segment.data
      let filesz := segment.data.length
      let pgdir ←
        storeBytes pgdir (segment.vaddr + BitVec.ofNat 64 filesz)
          (List.replicate (segment.memsz.toNat - filesz) 0)
      return (pgdir, some sz)

/-- The body of the loops of `execve` which push strings. -/
def pushString (pushed : Pgdir × Word) (text : Text) :
    Action (Pgdir × Word) := do
  let sp := pushed.2 - BitVec.ofNat 64 text.stored.length
  let pgdir ← copyout pushed.1 sp text.stored
  return (pgdir, sp)

/-- The bytes of a word in memory -/
def wordBytes (word : Word) : List UInt8 :=
  List.ofFn fun index : Fin 8 =>
    Library.LittleEndian.byte word.toNat index

/--
The loops of `execve` which write the addresses of strings, from the last one
of the `array`.  A string ends at the 0 which was pushed with it, so `sp` moves
past as many bytes as were pushed.
-/
def storePointers (array : Word) (strings : List Text)
    (found : Pgdir × Word) : Action (Pgdir × Word) :=
  strings.zipIdx.reverse.foldlM
    (fun found (text, i) => do
      let pgdir ←
        storeBytes found.1 (array + BitVec.ofNat 64 (8 * i))
          (wordBytes found.2)
      return (pgdir, found.2 + BitVec.ofNat 64 text.stored.length))
    found

/-- `MAXARG` -/
def maxArg : Nat := 10

/-- `newsp`, below `sp` and the pointers to `count` strings -/
def stackPointer (sp : Word) (count : Nat) : Word :=
  (sp - BitVec.ofNat 64 ((count + 4) * 8)) / 16 * 16

/-- `stksz`, for the stack pointer of the new program -/
def stackSize (sp : Word) : Word :=
  (BitVec.ofNat 64 userTop - sp + 40959) / 40960 * 40960

/-- What `execve` writes below the strings, which end at `sp`. -/
def finishStack (pgdir : Pgdir) (sp newsp : Word) (argv envp : List Text) :
    Action Pgdir := do
  let pgdir ← copyout pgdir newsp (List.replicate (sp - newsp).toNat 0)
  let newargv := newsp + 8
  let newenvp := newargv + BitVec.ofNat 64 ((argv.length + 1) * 8)
  let found ← storePointers newenvp envp (pgdir, sp)
  let found ← storePointers newargv argv found
  let pgdir ←
    storeBytes found.1 newsp (wordBytes (BitVec.ofNat 64 argv.length))
  let top : Word := BitVec.ofNat 64 userTop
  let stksz := stackSize newsp
  let pgdir ←
    copyout pgdir (top - stksz)
      (List.replicate (stksz - (top - newsp)).toNat 0)
  if newsp ≤ top - stksz then
    throw ()
  else
    return pgdir

/-- The part of `execve` after the segments, for the strings it takes. -/
def makeStack (pgdir : Pgdir) (argv envp : List Text) : Action Pgdir := do
  let pushed ← argv.foldlM pushString (pgdir, BitVec.ofNat 64 userTop)
  let (pgdir, sp) ← envp.foldlM pushString pushed
  let newsp := stackPointer sp (envp.length + argv.length)
  finishStack pgdir sp newsp argv envp

/-- `execve`; `none` when it takes one of the ways to `bad`. -/
def execve (pgdir : Pgdir) (image : Option Image) : Action Pgdir := do
  let new ← initPgdir
  match image with
  | none => return pgdir
  | some image => do
      let (new, _) ← image.segments.foldlM loadSegment (new, none)
      makeStack new (image.argv.take maxArg) (image.envp.take maxArg)

/-! ## The property -/

/-- A function which maps pages for the process with the directory `pgdir` -/
inductive Call where
  | pgfault (addr : Word)
  | execve (image : Option Image)
  | copyout (va : Word) (bytes : List UInt8)

def Call.run (pgdir : Pgdir) : Call → Action Pgdir
  | .pgfault addr => pgfaultHandler pgdir addr
  | .execve image => PageBytes.execve pgdir image
  | .copyout va bytes => PageBytes.copyout pgdir va bytes

/-- The memories differ only in the bytes of free pages. -/
structure SameButFree (memory other : Memory) : Prop where
  control : other.control = memory.control
  content :
    ∀ page offset, page ∉ memory.control.pages →
      other.content (page, offset) = memory.content (page, offset)

/--
When the call returns, every byte of the process in a page which was free
before is the same from all memories which differ only in free pages.
-/
def NoStaleByte (memory : Memory) (pgdir : Pgdir) (call : Call) : Prop :=
  ∀ new after, (call.run pgdir).run memory = .ok (new, after) →
    ∀ other, SameButFree memory other →
      ∃ otherAfter,
        (call.run pgdir).run other = .ok (new, otherAfter) ∧
        ∀ address < userTop, ∀ page ∈ memory.control.pages,
          new.entry (address / pageSize) = .page page →
            otherAfter.content (page, address % pageSize) =
              after.content (page, address % pageSize)

/-- A page is in the queue once, and not while it is mapped. -/
structure Separate (memory : Memory) (pgdir : Pgdir) : Prop where
  nodup : memory.control.pages.Nodup
  apart :
    ∀ index page, pgdir.entry index = .page page →
      page ∉ memory.control.pages

/-! ## When it holds -/

/-- The tables on the way to the address which are not there yet. -/
def Pgdir.missing (pgdir : Pgdir) (va : Word) : Nat :=
  [0, 1, 2, 3].countP fun level => !pgdir.table level (branch va level)

/-- The addresses which `len` bytes from `va` on have in a page table. -/
def range (va : Word) (len : Nat) : Set Nat :=
  {address | ∃ i < len, location (va + BitVec.ofNat 64 i) = address}

/-- The pages in which some of the addresses lie. -/
def pagesOf (addresses : Set Nat) : Set Nat :=
  (· / pageSize) '' addresses

/-- The pages which the loop of `allocuvm` maps from `a` on. -/
def grown (a newsz : Word) : Set Nat :=
  {index |
    ∃ n : Nat,
      (∀ k ≤ n, a + BitVec.ofNat 64 (k * pageSize) < newsz) ∧
      vpn (a + BitVec.ofNat 64 (n * pageSize)) = index}

/-- What the loading of a segment does, by the headers alone. -/
structure Part where
  /-- The pages which `allocuvm` maps. -/
  grown : Set Nat
  /-- The addresses which `execve` then fills. -/
  filled : Set Nat

/-- The segments of an image, where `sz` is the size before the first one. -/
def layout : Option Word → List Segment → List Part
  | _, [] => []
  | sz, segment :: rest =>
      let newsz := segment.vaddr + segment.memsz
      { grown := grown (roundUp (sz.getD segment.vaddr)) newsz
        filled := range segment.vaddr segment.memsz.toNat } ::
        layout (some (asInt newsz)) rest

/-- The bytes which strings take on the stack -/
def pushed (strings : List Text) : Nat :=
  (strings.map fun text => text.stored.length).sum

/-- The stack pointer of a new program -/
def newSp (argv envp : List Text) : Nat :=
  (userTop - (pushed argv + pushed envp) -
    (envp.length + argv.length + 4) * 8) / 16 * 16

/-- The lowest address of the new stack -/
def stackBottom (argv envp : List Text) : Nat :=
  userTop - (userTop - newSp argv envp + 40959) / 40960 * 40960

/--
Every address below the stack in a page which some segment maps is filled by a
segment after which the page is not mapped again.
-/
def Image.Covered (image : Image) : Prop :=
  let parts := layout none image.segments
  let bottom :=
    stackBottom (image.argv.take maxArg) (image.envp.take maxArg)
  ∀ address < bottom,
    (∃ part ∈ parts,
      address / pageSize ∈ part.grown ∪ pagesOf part.filled) →
    ∃ before part after,
      parts = before ++ part :: after ∧
      address ∈ part.filled ∧
      ∀ later ∈ after, address / pageSize ∉ later.grown

/-- The call maps no page, or overwrites all of each page which it maps. -/
def Call.Clean (memory : Memory) (pgdir : Pgdir) : Call → Prop
  | .pgfault addr =>
      pgdir.entry (vpn addr) ≠ .zero ∨
        (memory.control.pagenum -
          (memory.control.kallocPageCnt + pgdir.missing addr)) % 2 ^ 64 ≤ 1024
  | .execve none => True
  | .execve (some image) => image.Covered
  | .copyout va bytes =>
      userTop < (va + BitVec.ofNat 64 bytes.length).toNat ∨
        ∀ address,
          address / pageSize ∈ pagesOf (range va bytes.length) →
          (∀ page, pgdir.entry (address / pageSize) ≠ .page page) →
          address ∈ range va bytes.length

end FudanOS.Kernel.PageBytes
