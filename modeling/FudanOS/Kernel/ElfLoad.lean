import FudanOS.Fs.FileSpecs
import FudanOS.Kernel.Copyout

/-!
# Loading an executable

`allocuvm` and the loop of `execve` over the program headers, of
`kernel/exec.c`.  The file is the list of its bytes, which `inode_read` checks
a range against and copies from.  Addresses from `USERTOP` on are not mapped
here; the code would write to the kernel there.
-/

namespace FudanOS.Kernel.ElfLoad

open FudanOS.Aarch64.Mmu
open FudanOS.Library.LittleEndian
open FudanOS.Library.Views
open FudanOS.Kernel.PageTable
open FudanOS.Kernel.UserMemory
open FudanOS.Kernel.Copyout

/-! ## The functions -/

/-- Why the loop does not end well. -/
inductive Halt where
  /-- `kalloc_page` has no page. -/
  | noPage
  /-- `NULL` is written to. -/
  | null
  /-- An address is written which is not mapped. -/
  | fault
  /-- The loop of `allocuvm` does not end. -/
  | spins
  | assertion
  | panic
  deriving DecidableEq

/-- A program header, as far as the loop uses it. -/
structure ProgramHeader where
  type : Nat
  offset : Word
  vaddr : Word
  filesz : Word
  memsz : Word
  deriving DecidableEq

/-- `PT_LOAD` -/
def ptLoad : Nat := 1

/-- `sizeof(Elf64_Phdr)` -/
def headerSize : Word := 56

/-- A number of so many bytes at an offset. -/
def field (bytes : List UInt8) (offset width : Nat) : Nat :=
  value (fun index => bytes.getD (offset + index) 0) width

/-- `Elf64_Phdr` -/
def ProgramHeader.read (bytes : List UInt8) : ProgramHeader where
  type := field bytes 0 4
  offset := BitVec.ofNat 64 (field bytes 8 8)
  vaddr := BitVec.ofNat 64 (field bytes 16 8)
  filesz := BitVec.ofNat 64 (field bytes 32 8)
  memsz := BitVec.ofNat 64 (field bytes 40 8)

/-- `inode_read` of a file, with the number and the bytes which it reads. -/
def inodeRead (file : List UInt8) (offset count : Word) :
    Except Halt (Word × List UInt8) :=
  let numBytes := BitVec.ofNat 64 file.length
  let count := if numBytes < count + offset then numBytes - offset else count
  let finish := offset + count
  if offset ≤ numBytes ∧ finish ≤ numBytes ∧ offset ≤ finish then
    .ok (count, (file.drop offset.toNat).take count.toNat)
  else
    .error .assertion

/-- One page of `allocuvm` -/
def mapPage (memory : Memory) (a : Word) : Except Halt Memory :=
  match UserMemory.kallocPage memory with
  | .error _ => .error .noPage
  | .ok (p, memory) =>
      match getPte memory.table a true with
      | .error _ => .error .noPage
      | .ok (none, _) => .error .null
      | .ok (some pte, table) =>
          .ok
            (Memory.store { memory with table := table } pte
              (k2p p ||| pteUserData))

/-- The loop of `allocuvm`, with a bound on its iterations. -/
def allocLoop (newsz : Word) : Nat → Memory → Word → Except Halt Memory
  | 0, _, _ => .error .spins
  | fuel + 1, memory, a =>
      if a < newsz then do
        let memory ← mapPage memory a
        allocLoop newsz fuel memory (a + pageBytes)
      else
        .ok memory

/-- After so many iterations the loop is where it began. -/
abbrev allPages : Nat := 2 ^ 52

/-- `allocuvm`; `base` is not used. -/
def allocuvm (memory : Memory) (stksz oldsz newsz : Word) :
    Except Halt (Word × Memory) :=
  if stksz % pageBytes = 0 then do
    let a := (oldsz + pageBytes - 1) / pageBytes * pageBytes
    let memory ← allocLoop newsz (allPages + 1) memory a
    return (newsz, memory)
  else
    .error .assertion

/-- A write to user addresses -/
def writeUser (memory : Memory) (address : Word) (bytes : List UInt8) :
    Except Halt Memory :=
  match storeBytes memory address.toNat bytes with
  | none => .error .fault
  | some memory => .ok memory

/-- The variables of the loop. -/
structure Loading where
  memory : Memory
  sz : Word
  base : Word
  stksz : Word
  temp : Bool

/-- The segment of a header is loaded. -/
def loadSegment (file : List UInt8) (loading : Loading)
    (ph : ProgramHeader) : Except Halt Loading :=
  if ph.memsz < ph.filesz ∨ ph.vaddr + ph.memsz < ph.vaddr then
    .error .panic
  else do
    let loading ←
      if loading.temp then
        if ph.vaddr % pageBytes ≠ 0 then
          .error .panic
        else
          .ok
            { loading with sz := ph.vaddr, base := ph.vaddr, temp := false }
      else
        .ok loading
    let (sz, memory) ←
      allocuvm loading.memory loading.stksz loading.sz (ph.vaddr + ph.memsz)
    if sz = 0 then
      .error .panic
    else do
      let (count, bytes) ← inodeRead file ph.offset ph.filesz
      let memory ← writeUser memory ph.vaddr bytes
      if count ≠ ph.filesz then
        .error .panic
      else do
        let memory ←
          writeUser memory (ph.vaddr + ph.filesz)
            (List.replicate (ph.memsz - ph.filesz).toNat 0)
        return { loading with memory := memory, sz := sz }

/-- The loop over the headers which are left, from `off` on. -/
def loadLoop (file : List UInt8) :
    Nat → Word → Loading → Except Halt Loading
  | 0, _, loading => .ok loading
  | left + 1, off, loading => do
      let (count, bytes) ← inodeRead file off headerSize
      if count ≠ headerSize then
        .error .panic
      else do
        let ph := ProgramHeader.read bytes
        let loading ←
          if ph.type ≠ ptLoad then
            .ok loading
          else
            loadSegment file loading ph
        loadLoop file left (off + headerSize) loading

/-- The loop of `execve` for `elf.e_phoff` and `elf.e_phnum`. -/
def load (file : List UInt8) (memory : Memory) (phoff : Word)
    (phnum : Nat) : Except Halt Loading :=
  loadLoop file phnum phoff
    { memory := memory, sz := 0, base := 0, stksz := 0, temp := true }

/-- `sizeof(Elf64_Ehdr)` -/
def elfSize : Word := 64

/-- The magic bytes of `e_ident`, and `ELFCLASS64` after them. -/
def identification : List UInt8 := [0x7f, 0x45, 0x4c, 0x46, 2]

/--
The header of the file is read, and the segments are loaded.  `none` is the
jump to `bad`.
-/
def loadElf (file : List UInt8) (memory : Memory) :
    Except Halt (Option Loading) := do
  let (count, elf) ← inodeRead file 0 elfSize
  if count ≠ elfSize then
    return none
  else if elf.take 5 ≠ identification then
    return none
  else
    let phoff := BitVec.ofNat 64 (field elf 32 8)
    let loading ← load file memory phoff (field elf 56 2)
    return some loading

/-! ## What is loaded -/

/-- The header at an index of the table. -/
def headerAt (file : List UInt8) (phoff : Word) (index : Nat) :
    ProgramHeader :=
  ProgramHeader.read
    ((file.drop (phoff.toNat + headerSize.toNat * index)).take
      headerSize.toNat)

/-- The headers of the segments, in the order of the table. -/
def segments (file : List UInt8) (phoff : Word) (phnum : Nat) :
    List ProgramHeader :=
  ((List.range phnum).map (headerAt file phoff)).filter
    fun ph => ph.type = ptLoad

/-- The end of a segment. -/
def ProgramHeader.finish (ph : ProgramHeader) : Nat :=
  ph.vaddr.toNat + ph.memsz.toNat

/-- A segment which lies below `2 ^ 31`, with its bytes in the file. -/
structure ProgramHeader.Sound
    (file : List UInt8)
    (ph : ProgramHeader) : Prop where
  nonempty : 0 < ph.memsz.toNat
  below : ph.finish ≤ 2 ^ 31
  sizes : ph.filesz.toNat ≤ ph.memsz.toNat
  inside : ph.offset.toNat + ph.filesz.toNat ≤ file.length

/-- The bytes of the segment, and zeros after those of the file. -/
def segmentByte (file : List UInt8) (ph : ProgramHeader)
    (offset : Nat) : UInt8 :=
  if offset < ph.filesz.toNat then
    file.getD (ph.offset.toNat + offset) 0
  else
    0

/-- The segment is in the memory. -/
def Loaded (bytes : View UInt8) (file : List UInt8)
    (ph : ProgramHeader) : Prop :=
  ∀ offset < ph.memsz.toNat,
    bytes (ph.vaddr.toNat + offset) = some (segmentByte file ph offset)

/-- The start of the first page from an address on. -/
def pageUp (address : Nat) : Nat :=
  (address + 4095) / 4096 * 4096

/-- `elf.e_phoff` -/
def phoffOf (file : List UInt8) : Word :=
  BitVec.ofNat 64 (field (file.take elfSize.toNat) 32 8)

/-- `elf.e_phnum` -/
def phnumOf (file : List UInt8) : Nat :=
  field (file.take elfSize.toNat) 56 2

/-- The address of the first segment. -/
def imageBase (headers : List ProgramHeader) : Nat :=
  (headers.head?.map fun ph => ph.vaddr.toNat).getD 0

/-- An executable which can be loaded. -/
structure Loadable
    (file : List UInt8)
    (phoff : Word)
    (phnum : Nat) : Prop where
  size : file.length < 2 ^ 63
  whole : elfSize.toNat ≤ file.length
  magic : file.take 5 = identification
  table : phoff.toNat + headerSize.toNat * phnum ≤ file.length
  sound : ∀ ph ∈ segments file phoff phnum, ph.Sound file
  ascending :
    (segments file phoff phnum).Pairwise fun first second =>
      first.finish ≤ second.vaddr.toNat
  aligned :
    ∀ ph ∈ (segments file phoff phnum).head?, ph.vaddr.toNat % 4096 = 0

/-! ## Pages -/

section Pages

variable {memory : Memory} {a newsz : Word}

theorem mapPage_provides
    (distinct : Distinct memory)
    (below : a.toNat < userTop.toNat)
    (unmapped : ¬ Mapped memory a.toNat)
    (enough : 4 ≤ memory.table.supply.length) :
    ∃ page after,
      mapPage memory a = .ok after ∧ Provides memory a page after := by
  rcases distinct with ⟨tables, values, formed⟩
  have offered : memory.table.supply ≠ [] := by
    intro empty
    rw [empty] at enough
    exact absurd enough (by decide)
  rcases List.exists_cons_of_ne_nil offered with ⟨page, rest, offered⟩
  have count := congrArg List.length offered
  rw [List.length_cons] at count
  rcases formed.take offered with ⟨reduced, fresh⟩
  have rooted : memory.table.pt ≠ none := by
    rw [formed.shape.root]
    exact formed.shape.rooted
  rcases @getPte_returns { memory.table with supply := rest } a true rooted
    (fun _ => show 3 ≤ rest.length by omega) with
    ⟨pte, table, called, left⟩
  rcases reduced.getPte called with ⟨more, last, found, here, rfl, kept⟩
  have invalid : ¬ values a &&& pteValid ≠ 0 := by
    intro valid
    apply unmapped
    rw [mapped_iff, BitVec.ofNat_toNat, BitVec.setWidth_eq, formed.entryOf]
    exact ⟨below, valid⟩
  have spent : memory.table.supply.length ≤ table.supply.length + 4 := by
    change rest.length ≤ _ at left
    omega
  refine ⟨page, _, ?_,
    formed.provides below invalid found (kept page fresh) here spent⟩
  unfold mapPage UserMemory.kallocPage
  rw [offered]
  dsimp only
  rw [called]

/-- `allocuvm` maps the pages up to the new size, and no others. -/
structure Allocates
    (memory : Memory)
    (start size : Nat)
    (after : Memory) : Prop where
  distinct : Distinct after
  keeps : Keeps memory 0 0 after
  mapped : ∀ x, start ≤ x → x < pageUp size → Mapped after x
  unmapped : ∀ x, start ≤ x → pageUp size ≤ x → ¬ Mapped after x
  spent :
    memory.table.supply.length ≤
      after.table.supply.length + 4 * ((pageUp size - start) / 4096)

/-- The loop of `allocuvm` ends when the pages are there. -/
theorem allocLoop_done
    (fuel : Nat)
    (distinct : Distinct memory)
    (free : ∀ x, a.toNat ≤ x → ¬ Mapped memory x)
    (aligned : a.toNat % 4096 = 0)
    (done : newsz.toNat ≤ a.toNat) :
    ∃ after,
      allocLoop newsz (fuel + 1) memory a = .ok after ∧
        Allocates memory a.toNat newsz.toNat after := by
  refine ⟨memory, ?_, distinct, Keeps.refl _ _ _, ?_, ?_, ?_⟩
  · unfold allocLoop
    rw [if_neg (by
      rw [BitVec.lt_def]
      exact Nat.not_lt.mpr done)]
  · intro x above inside
    unfold pageUp at inside
    omega
  · intro x above _
    exact free x above
  · exact Nat.le_add_right _ _

theorem allocLoop_allocates
    (fuel : Nat)
    (distinct : Distinct memory)
    (aligned : a.toNat % 4096 = 0)
    (below : newsz.toNat ≤ 2 ^ 31)
    (free : ∀ x, a.toNat ≤ x → ¬ Mapped memory x)
    (rounds : newsz.toNat ≤ a.toNat + 4096 * fuel)
    (enough :
      4 * ((pageUp newsz.toNat - a.toNat) / 4096) ≤
        memory.table.supply.length) :
    ∃ after,
      allocLoop newsz (fuel + 1) memory a = .ok after ∧
        Allocates memory a.toNat newsz.toNat after := by
  have top : userTop.toNat = 2 ^ 48 := rfl
  induction fuel generalizing memory a with
  | zero => exact allocLoop_done 0 distinct free aligned rounds
  | succ fuel ih =>
      by_cases done : newsz.toNat ≤ a.toNat
      · exact allocLoop_done (fuel + 1) distinct free aligned done
      · have pages :
            (pageUp newsz.toNat - a.toNat) / 4096 =
              (pageUp newsz.toNat - (a.toNat + 4096)) / 4096 + 1 := by
          unfold pageUp
          omega
        have next : (a + pageBytes).toNat = a.toNat + 4096 := by
          rw [BitVec.toNat_add]
          change (a.toNat + 4096) % 2 ^ 64 = _
          omega
        rcases mapPage_provides distinct (by omega)
          (free _ (Nat.le_refl _)) (by omega) with
          ⟨page, middle, ran, provides⟩
        have spent := provides.spent
        have other :
            ∀ x, (a + pageBytes).toNat ≤ x → ¬ Mapped middle x := by
          intro x above mapped
          rw [next] at above
          rcases provides.only x mapped with before | same
          · exact free x (by omega) before
          · unfold pageSize at same
            omega
        rcases
          @ih middle (a + pageBytes) provides.distinct (by omega) other
            (by omega)
            (by
              rw [next]
              omega) with
          ⟨after, rest, allocates⟩
        have left := allocates.spent
        rw [next] at left
        refine ⟨after, ?_, allocates.distinct,
          provides.keeps.trans allocates.keeps, ?_, ?_, ?_⟩
        · unfold allocLoop
          rw [if_pos (show a < newsz from Nat.lt_of_not_le done), ran]
          exact rest
        · intro x above inside
          by_cases here : x < a.toNat + 4096
          · apply allocates.keeps.mapped
            rcases provides.distinct with ⟨tables, values, formed⟩
            have offset : x = a.toNat + (x - a.toNat) := by omega
            rw [offset]
            apply (formed.mapped_add provides.mapped _).1
            unfold pageSize
            omega
          · exact allocates.mapped x (by omega) inside
        · intro x above inside
          apply allocates.unmapped x _ inside
          unfold pageUp at inside
          omega
        · omega

theorem toNat_pageUp
    {size : Word}
    (below : size.toNat ≤ 2 ^ 31) :
    ((size + pageBytes - 1) / pageBytes * pageBytes).toNat =
      pageUp size.toNat := by
  have unit : pageBytes.toNat = 4096 := rfl
  have sum : (size + pageBytes - 1).toNat = size.toNat + 4095 := by
    rw [BitVec.toNat_sub, BitVec.toNat_add, unit]
    change (2 ^ 64 - 1 + (size.toNat + 4096) % 2 ^ 64) % 2 ^ 64 = _
    omega
  unfold pageUp
  rw [BitVec.toNat_mul, BitVec.toNat_udiv, sum, unit]
  omega

theorem allocuvm_allocates
    {oldsz : Word}
    (distinct : Distinct memory)
    (old : oldsz.toNat ≤ 2 ^ 31)
    (below : newsz.toNat ≤ 2 ^ 31)
    (free : ∀ x, pageUp oldsz.toNat ≤ x → ¬ Mapped memory x)
    (enough :
      4 * ((pageUp newsz.toNat - pageUp oldsz.toNat) / 4096) ≤
        memory.table.supply.length) :
    ∃ after,
      allocuvm memory 0 oldsz newsz = .ok (newsz, after) ∧
        Allocates memory (pageUp oldsz.toNat) newsz.toNat after := by
  have start := toNat_pageUp old
  generalize isStart :
    (oldsz + pageBytes - 1) / pageBytes * pageBytes = a at start
  rw [← start] at free enough ⊢
  have rounds : newsz.toNat ≤ a.toNat + 4096 * allPages := by
    have bound : 4096 * allPages = 2 ^ 64 := rfl
    omega
  rcases allocLoop_allocates allPages distinct
    (by
      rw [start]
      unfold pageUp
      omega) below free rounds enough with
    ⟨after, ran, allocates⟩
  refine ⟨after, ?_, allocates⟩
  unfold allocuvm
  rw [if_pos (by decide)]
  dsimp only
  rw [isStart, ran]
  rfl

end Pages

/-! ## Files -/

section Files

variable {file : List UInt8} {offset count : Word}

/-- A range which starts in the file is cut at the end of the file. -/
theorem inodeRead_min
    (size : file.length < 2 ^ 63)
    (inside : offset.toNat ≤ file.length)
    (fits : offset.toNat + count.toNat < 2 ^ 64) :
    inodeRead file offset count =
      .ok
        (BitVec.ofNat 64
            (min count.toNat (file.length - offset.toNat)),
          (file.drop offset.toNat).take count.toNat) := by
  have number : (BitVec.ofNat 64 file.length).toNat = file.length := by
    rw [BitVec.toNat_ofNat]
    omega
  have sum : (count + offset).toNat = offset.toNat + count.toNat := by
    rw [BitVec.toNat_add]
    omega
  have rest :
      (BitVec.ofNat 64 file.length - offset).toNat =
        file.length - offset.toNat := by
    rw [BitVec.toNat_sub_of_le, number]
    rw [BitVec.le_def, number]
    exact inside
  unfold inodeRead
  dsimp only
  by_cases beyond : file.length < offset.toNat + count.toNat
  · have cut : BitVec.ofNat 64 file.length < count + offset := by
      rw [BitVec.lt_def, number, sum]
      exact beyond
    have all :
        offset + (BitVec.ofNat 64 file.length - offset) =
          BitVec.ofNat 64 file.length := by
      rw [BitVec.add_comm, BitVec.sub_add_cancel]
    rw [if_pos cut, all, if_pos]
    · rw [Nat.min_eq_right (by omega), ← rest, BitVec.ofNat_toNat,
        BitVec.setWidth_eq, rest, List.take_of_length_le (Nat.le_of_eq _),
        List.take_of_length_le]
      · rw [List.length_drop]
        omega
      · rw [List.length_drop]
    · rw [BitVec.le_def, number]
      exact ⟨inside, Nat.le_refl _, inside⟩
  · have whole : ¬ BitVec.ofNat 64 file.length < count + offset := by
      rw [BitVec.lt_def, number, sum]
      exact beyond
    rw [if_neg whole, if_pos]
    · rw [Nat.min_eq_left (by omega), BitVec.ofNat_toNat,
        BitVec.setWidth_eq]
    · rw [BitVec.le_def, BitVec.le_def, BitVec.le_def, number,
        BitVec.add_comm offset, sum]
      omega

theorem inodeRead_eq
    (size : file.length < 2 ^ 63)
    (inside : offset.toNat + count.toNat ≤ file.length) :
    inodeRead file offset count =
      .ok (count, (file.drop offset.toNat).take count.toNat) := by
  rw [inodeRead_min size (by omega) (by omega), Nat.min_eq_left (by omega),
    BitVec.ofNat_toNat, BitVec.setWidth_eq]

section Inodes

open FudanOS.Library.Programs
open FudanOS.Fs.Defines
open FudanOS.Fs.BlockBitmap
open FudanOS.Fs.InodeLayout
open FudanOS.Fs.InodeLayer
open FudanOS.Fs.BlockOwnership
open FudanOS.Fs.FileContents
open FudanOS.Fs.InodeSpecs
open FudanOS.Fs.FileSpecs

/-- `inode_read` of an inode reads from the contents of its file. -/
theorem ensures_read_contents
    {sblock : SuperBlock}
    {accepts : Stop → Prop}
    {store : Store}
    {inode : Inode}
    (geometry : Geometry sblock)
    (calm : Calm sblock store)
    (owned : Owned sblock (Fs.InodeLayout.view sblock store.blocks))
    (loaded :
      Fs.InodeSpecs.Loaded sblock
        (Fs.InodeLayout.view sblock store.blocks) inode)
    (present :
      ∀ index,
        index * blockSize <
            fileSize (Fs.InodeLayout.view sblock store.blocks)
              inode.inodeNo →
          HasBlock (Fs.InodeLayout.view sblock store.blocks)
            inode.inodeNo index)
    (console : ConsoleRead)
    (notDevice : inode.entry.type ≠ inodeDevice)
    {offset count : Word}
    (inside :
      offset.toNat ≤
        fileSize (Fs.InodeLayout.view sblock store.blocks) inode.inodeNo)
    (fits : offset.toNat + count.toNat < 2 ^ 64) :
    Ensures accepts
      (Fs.InodeLayer.inodeRead sblock console inode offset.toNat count.toNat)
      store
      fun result target =>
        ElfLoad.inodeRead
              (Fs.FileContents.contents
                (Fs.InodeLayout.view sblock store.blocks)
                inode.inodeNo)
              offset count =
            .ok (BitVec.ofNat 64 result.1, result.2) ∧
          target = store := by
  have length :
      (Fs.FileContents.contents
          (Fs.InodeLayout.view sblock store.blocks)
          inode.inodeNo).length =
        fileSize (Fs.InodeLayout.view sblock store.blocks)
          inode.inodeNo :=
    length_contents
  have size :
      fileSize (Fs.InodeLayout.view sblock store.blocks) inode.inodeNo <
        2 ^ 63 := by
    have below := inode.entry.numBytes.toNat_lt
    have same :
        fileSize (Fs.InodeLayout.view sblock store.blocks) inode.inodeNo =
          inode.entry.numBytes.toNat := by
      unfold fileSize
      rw [loaded.entry]
    omega
  refine
    (ensures_inodeRead geometry calm owned loaded present console notDevice
      inside fits).mono ?_
  rintro result target ⟨count, bytes, same⟩
  refine ⟨?_, same⟩
  rw [inodeRead_min (length ▸ size) (length ▸ inside) fits, count, bytes,
    length]

end Inodes

theorem writeUser_writes
    {memory : Memory}
    {address : Word}
    (bytes : List UInt8)
    (distinct : Distinct memory)
    (mapped :
      ∀ other, InRange address.toNat bytes.length other →
        Mapped memory other) :
    ∃ after,
      writeUser memory address bytes = .ok after ∧ Distinct after ∧
        after.table = memory.table ∧
        Writes memory address.toNat bytes.length (contents bytes)
          after := by
  rcases storeBytes_writes bytes distinct mapped with
    ⟨after, ran, result⟩
  refine ⟨after, ?_, result⟩
  unfold writeUser
  rw [ran]

end Files

/-! ## Segments -/

/-- Segments are loaded up to `sz`, and the pages from `base` on are there. -/
structure Running
    (file : List UInt8)
    (base supply : Nat)
    (done : List ProgramHeader)
    (loading : Loading) : Prop where
  temp : loading.temp = false
  stksz : loading.stksz = 0
  distinct : Distinct loading.memory
  aligned : base % 4096 = 0
  order : base ≤ loading.sz.toNat
  below : loading.sz.toNat ≤ 2 ^ 31
  finished : ∀ ph ∈ done, ph.finish ≤ loading.sz.toNat
  loaded : ∀ ph ∈ done, Loaded (view loading.memory) file ph
  mapped :
    ∀ x, base ≤ x → x < pageUp loading.sz.toNat → Mapped loading.memory x
  unmapped : ∀ x, pageUp loading.sz.toNat ≤ x → ¬ Mapped loading.memory x
  spent :
    supply ≤
      loading.memory.table.supply.length +
        4 * ((pageUp loading.sz.toNat - base) / 4096)

section Segments

variable
    {file : List UInt8}
    {base supply : Nat}
    {done : List ProgramHeader}
    {loading : Loading}
    {ph : ProgramHeader}

/-- A segment stays when bytes after it are written. -/
theorem loaded_kept
    {memory after : Memory}
    {start length : Nat}
    (loaded : Loaded (view memory) file ph)
    (keeps : Keeps memory start length after)
    (apart : ph.finish ≤ start ∨ length = 0) :
    Loaded (view after) file ph := by
  intro offset inside
  have there := loaded offset inside
  rw [keeps.kept, there]
  · unfold InRange
    unfold ProgramHeader.finish at apart
    omega
  · unfold Mapped
    rw [there]
    exact Option.some_ne_none _

/-- The bytes of the file and the zeros are the segment. -/
theorem loaded_of_writes
    {memory middle after : Memory}
    (first :
      Writes memory ph.vaddr.toNat ph.filesz.toNat
        (contents
          ((file.drop ph.offset.toNat).take ph.filesz.toNat)) middle)
    (second :
      Writes middle (ph.vaddr.toNat + ph.filesz.toNat)
        (ph.memsz.toNat - ph.filesz.toNat)
        (contents
          (List.replicate (ph.memsz.toNat - ph.filesz.toNat) 0)) after) :
    Loaded (view after) file ph := by
  intro offset inside
  unfold segmentByte
  by_cases early : offset < ph.filesz.toNat
  · have written := first.stores.written offset early
    rw [if_pos early, second.keeps.kept, written]
    · unfold contents
      rw [List.getD_eq_getElem?_getD, List.getD_eq_getElem?_getD,
        List.getElem?_take_of_lt early, List.getElem?_drop]
    · unfold InRange
      omega
    · unfold Mapped
      rw [written]
      exact Option.some_ne_none _
  · have rest : offset - ph.filesz.toNat <
        ph.memsz.toNat - ph.filesz.toNat := by
      omega
    have written := second.stores.written _ rest
    have address :
        ph.vaddr.toNat + ph.filesz.toNat + (offset - ph.filesz.toNat) =
          ph.vaddr.toNat + offset := by
      omega
    rw [address] at written
    rw [if_neg early, written]
    unfold contents
    rw [List.getD_eq_getElem?_getD, List.getElem?_replicate_of_lt rest]
    rfl

/-- A segment above the others is loaded. -/
theorem Running.segment
    (size : file.length < 2 ^ 63)
    (running : Running file base supply done loading)
    (sound : ph.Sound file)
    (above : loading.sz.toNat ≤ ph.vaddr.toNat)
    (enough : 4 * ((pageUp ph.finish - base) / 4096) ≤ supply) :
    ∃ after,
      loadSegment file loading ph = .ok after ∧
        after.sz.toNat = ph.finish ∧
        Running file base supply (done ++ [ph]) after := by
  rcases sound with ⟨nonempty, below, sizes, inside⟩
  have finish : (ph.vaddr + ph.memsz).toNat = ph.finish := by
    unfold ProgramHeader.finish at below ⊢
    rw [BitVec.toNat_add]
    omega
  have isFinish : ph.finish = ph.vaddr.toNat + ph.memsz.toNat := rfl
  have order := running.order
  have aligned := running.aligned
  have spent := running.spent
  have grows : pageUp loading.sz.toNat ≤ pageUp ph.finish := by
    unfold pageUp
    omega
  have split :
      (pageUp ph.finish - base) / 4096 =
        (pageUp ph.finish - pageUp loading.sz.toNat) / 4096 +
          (pageUp loading.sz.toNat - base) / 4096 := by
    unfold pageUp at grows ⊢
    omega
  rcases @allocuvm_allocates loading.memory (ph.vaddr + ph.memsz) loading.sz
    running.distinct running.below (by rw [finish]; exact below)
    running.unmapped (by
      rw [finish]
      omega) with
    ⟨first, allocated, allocates⟩
  rw [finish] at allocates
  have mapped : ∀ x, base ≤ x → x < pageUp ph.finish → Mapped first x := by
    intro x low high
    by_cases old : x < pageUp loading.sz.toNat
    · exact allocates.keeps.mapped x (running.mapped x low old)
    · exact allocates.mapped x (Nat.le_of_not_lt old) high
  have unmapped : ∀ x, pageUp ph.finish ≤ x → ¬ Mapped first x := by
    intro x high
    exact allocates.unmapped x (grows.trans high) high
  have top : ph.finish ≤ pageUp ph.finish := by
    unfold pageUp
    omega
  have length :
      ((file.drop ph.offset.toNat).take ph.filesz.toNat).length =
        ph.filesz.toNat := by
    rw [List.length_take, List.length_drop]
    omega
  rcases
    @writeUser_writes first ph.vaddr
      ((file.drop ph.offset.toNat).take ph.filesz.toNat)
      allocates.distinct (by
        intro x within
        rw [length] at within
        unfold InRange at within
        exact mapped x (by omega) (by omega)) with
    ⟨second, copied, distinct, table, copies⟩
  rw [length] at copies
  have zeroStart :
      (ph.vaddr + ph.filesz).toNat = ph.vaddr.toNat + ph.filesz.toNat := by
    rw [BitVec.toNat_add]
    omega
  have zeroCount :
      (ph.memsz - ph.filesz).toNat = ph.memsz.toNat - ph.filesz.toNat :=
    BitVec.toNat_sub_of_le (BitVec.le_def.mpr sizes)
  rcases
    @writeUser_writes second (ph.vaddr + ph.filesz)
      (List.replicate (ph.memsz.toNat - ph.filesz.toNat) 0) distinct (by
        intro x within
        rw [List.length_replicate, zeroStart] at within
        unfold InRange at within
        exact copies.mapped (mapped x (by omega) (by omega))) with
    ⟨third, cleared, distinct, sameTable, clears⟩
  rw [List.length_replicate, zeroStart] at clears
  have tables : third.table = first.table := sameTable.trans table
  refine
    ⟨{ loading with memory := third, sz := ph.vaddr + ph.memsz }, ?_,
      finish, ?_⟩
  · have sane :
        ¬ (ph.memsz < ph.filesz ∨ ph.vaddr + ph.memsz < ph.vaddr) := by
      rw [BitVec.lt_def, BitVec.lt_def, finish]
      omega
    have nonzero : ¬ ph.vaddr + ph.memsz = 0 := by
      intro zero
      rw [zero] at finish
      change 0 = ph.finish at finish
      omega
    unfold loadSegment
    rw [if_neg sane, running.temp, if_neg Bool.false_ne_true, ok_bind]
    dsimp only
    rw [running.stksz, allocated, ok_bind]
    dsimp only
    rw [if_neg nonzero, inodeRead_eq size inside, ok_bind]
    dsimp only
    rw [copied, ok_bind, if_neg (not_not.mpr rfl), zeroCount, cleared,
      ok_bind, running.temp]
    rfl
  · refine ⟨running.temp, running.stksz, distinct, aligned, ?_, ?_, ?_, ?_,
      ?_, ?_, ?_⟩
    · rw [finish]
      omega
    · rw [finish]
      exact below
    · intro other member
      rw [finish]
      rcases List.mem_append.mp member with old | new
      · exact (running.finished other old).trans (by omega)
      · rw [List.mem_singleton.mp new]
    · intro other member
      rcases List.mem_append.mp member with old | new
      · have before := running.finished other old
        apply loaded_kept _ clears.keeps (Or.inl (by omega))
        apply loaded_kept _ copies.keeps (Or.inl (by omega))
        exact loaded_kept (running.loaded other old) allocates.keeps
          (Or.inr rfl)
      · rw [List.mem_singleton.mp new]
        exact loaded_of_writes copies clears
    · intro x low high
      rw [finish] at high
      exact (mapped_of_table tables x).mpr (mapped x low high)
    · intro x high
      rw [finish] at high
      exact fun there => unmapped x high ((mapped_of_table tables x).mp there)
    · have left := allocates.spent
      rw [finish]
      change supply ≤ third.table.supply.length + _
      rw [tables]
      omega

/-- Nothing has been loaded yet. -/
structure Starting (supply : Nat) (loading : Loading) : Prop where
  temp : loading.temp = true
  stksz : loading.stksz = 0
  sz : loading.sz = 0
  distinct : Distinct loading.memory
  unmapped : ∀ x, ¬ Mapped loading.memory x
  spent : supply = loading.memory.table.supply.length

/-- The first segment sets `sz` and `base`. -/
theorem Starting.first
    (starting : Starting supply loading)
    (aligned : ph.vaddr.toNat % 4096 = 0)
    (below : ph.vaddr.toNat ≤ 2 ^ 31) :
    ∃ begun,
      loadSegment file loading ph = loadSegment file begun ph ∧
        begun.sz = ph.vaddr ∧
        Running file ph.vaddr.toNat supply [] begun := by
  have page : ¬ ph.vaddr % pageBytes ≠ 0 := by
    rw [not_not]
    apply BitVec.eq_of_toNat_eq
    rw [BitVec.toNat_umod]
    exact aligned
  have top : pageUp ph.vaddr.toNat = ph.vaddr.toNat := by
    unfold pageUp
    omega
  refine
    ⟨{ loading with sz := ph.vaddr, base := ph.vaddr, temp := false }, ?_,
      rfl, ?_⟩
  · unfold loadSegment
    by_cases panics : ph.memsz < ph.filesz ∨ ph.vaddr + ph.memsz < ph.vaddr
    · rw [if_pos panics, if_pos panics]
    · rw [if_neg panics, if_neg panics, starting.temp, if_pos rfl,
        if_neg page, if_neg Bool.false_ne_true]
  · refine ⟨rfl, starting.stksz, starting.distinct, aligned,
      Nat.le_refl _, below, ?_, ?_, ?_, ?_, ?_⟩
    · intro other member
      exact absurd member List.not_mem_nil
    · intro other member
      exact absurd member List.not_mem_nil
    · intro x low high
      dsimp only at high
      omega
    · intro x _
      exact starting.unmapped x
    · dsimp only
      rw [top, Nat.sub_self, starting.spent]
      exact Nat.le_add_right _ _

/-- The state of the loop when so many segments have been loaded. -/
def Progress
    (file : List UInt8)
    (base supply : Nat)
    (done : List ProgramHeader)
    (loading : Loading) : Prop :=
  (Starting supply loading ∧ done = []) ∨
    Running file base supply done loading

theorem Progress.segment
    (size : file.length < 2 ^ 63)
    (progress : Progress file base supply done loading)
    (sound : ph.Sound file)
    (above : loading.sz.toNat ≤ ph.vaddr.toNat)
    (first :
      done = [] → base = ph.vaddr.toNat ∧ ph.vaddr.toNat % 4096 = 0)
    (enough : 4 * ((pageUp ph.finish - base) / 4096) ≤ supply) :
    ∃ after,
      loadSegment file loading ph = .ok after ∧
        after.sz.toNat = ph.finish ∧
        Running file base supply (done ++ [ph]) after := by
  rcases progress with ⟨starting, rfl⟩ | running
  · rcases first rfl with ⟨rfl, aligned⟩
    have below : ph.vaddr.toNat ≤ 2 ^ 31 :=
      (Nat.le_add_right _ _).trans sound.below
    rcases starting.first aligned below with ⟨begun, same, sz, running⟩
    rw [same]
    exact running.segment size sound (by rw [sz]) enough
  · exact running.segment size sound above enough

end Segments

/-! ## The loop -/

section Loop

variable
    {file : List UInt8}
    {phoff : Word}
    {base supply : Nat}

/-- The segments of a part of the table. -/
def segmentsFrom (file : List UInt8) (phoff : Word) (index left : Nat) :
    List ProgramHeader :=
  ((List.range' index left).map (headerAt file phoff)).filter
    fun ph => ph.type = ptLoad

theorem segmentsFrom_zero (phnum : Nat) :
    segmentsFrom file phoff 0 phnum = segments file phoff phnum := by
  unfold segmentsFrom segments
  rw [List.range_eq_range']

theorem segmentsFrom_succ (index left : Nat) :
    segmentsFrom file phoff index (left + 1) =
      if (headerAt file phoff index).type = ptLoad then
        headerAt file phoff index :: segmentsFrom file phoff (index + 1) left
      else
        segmentsFrom file phoff (index + 1) left := by
  unfold segmentsFrom
  rw [List.range'_succ, List.map_cons, List.filter_cons]
  simp only [decide_eq_true_eq]

theorem loadLoop_progress
    (size : file.length < 2 ^ 63)
    (left : Nat)
    {index : Nat}
    {off : Word}
    {done : List ProgramHeader}
    {loading : Loading}
    (place : off.toNat = phoff.toNat + 56 * index)
    (table : phoff.toNat + 56 * (index + left) ≤ file.length)
    (progress : Progress file base supply done loading)
    (sound : ∀ ph ∈ segmentsFrom file phoff index left, ph.Sound file)
    (ascending :
      (segmentsFrom file phoff index left).Pairwise fun first second =>
        first.finish ≤ second.vaddr.toNat)
    (above :
      ∀ ph ∈ segmentsFrom file phoff index left,
        loading.sz.toNat ≤ ph.vaddr.toNat)
    (first :
      done = [] →
        ∀ ph ∈ (segmentsFrom file phoff index left).head?,
          base = ph.vaddr.toNat ∧ ph.vaddr.toNat % 4096 = 0)
    (enough :
      ∀ ph ∈ segmentsFrom file phoff index left,
        4 * ((pageUp ph.finish - base) / 4096) ≤ supply) :
    ∃ after,
      loadLoop file left off loading = .ok after ∧
        Progress file base supply
          (done ++ segmentsFrom file phoff index left) after := by
  induction left generalizing index off done loading with
  | zero =>
      refine ⟨loading, rfl, ?_⟩
      have none_ : segmentsFrom file phoff index 0 = [] := rfl
      rw [none_, List.append_nil]
      exact progress
  | succ left ih =>
      have read :
          inodeRead file off headerSize =
            .ok
              (headerSize,
                (file.drop off.toNat).take headerSize.toNat) := by
        apply inodeRead_eq size
        change off.toNat + 56 ≤ _
        omega
      have header :
          ProgramHeader.read
              ((file.drop off.toNat).take headerSize.toNat) =
            headerAt file phoff index := by
        unfold headerAt
        rw [place]
        rfl
      have next : (off + headerSize).toNat = phoff.toNat + 56 * (index + 1) := by
        rw [BitVec.toNat_add]
        change (off.toNat + 56) % 2 ^ 64 = _
        omega
      rw [segmentsFrom_succ] at sound ascending above first enough ⊢
      unfold loadLoop
      rw [read, ok_bind]
      dsimp only
      rw [if_neg (not_not.mpr rfl), header]
      by_cases isLoad : (headerAt file phoff index).type = ptLoad
      · rw [if_pos isLoad] at sound ascending above first enough ⊢
        rw [if_neg (not_not.mpr isLoad)]
        rw [List.pairwise_cons] at ascending
        rcases progress.segment size (sound _ List.mem_cons_self)
          (above _ List.mem_cons_self)
          (fun none_ => first none_ _ rfl)
          (enough _ List.mem_cons_self) with
          ⟨middle, ran, finish, running⟩
        rcases
          @ih (index + 1) (off + headerSize)
            (done ++ [headerAt file phoff index]) middle next (by omega)
            (Or.inr running)
            (fun ph member => sound ph (List.mem_cons_of_mem _ member))
            ascending.2
            (by
              intro ph member
              rw [finish]
              exact ascending.1 ph member)
            (fun none_ => absurd none_ (List.append_ne_nil_of_right_ne_nil _
              (List.cons_ne_nil _ _)))
            (fun ph member => enough ph (List.mem_cons_of_mem _ member)) with
          ⟨after, rest, all⟩
        refine ⟨after, ?_, ?_⟩
        · rw [ran, ok_bind]
          exact rest
        · rw [List.append_assoc] at all
          exact all
      · rw [if_neg isLoad] at sound ascending above first enough ⊢
        rw [if_pos isLoad]
        rw [ok_bind]
        exact @ih (index + 1) (off + headerSize) done loading next (by omega)
          progress sound ascending above first enough

end Loop

/-! ## Executables -/

/--
An executable is loaded into a new page directory: all bytes of all segments
are mapped, with what the file has for them and zeros after that.  Segments
may share pages, and neither loading nor zeroing one changes another.
-/
theorem loadElf_loads
    (file : List UInt8)
    (memory : Memory)
    (distinct : Distinct memory)
    (unmapped : ∀ address, ¬ Mapped memory address)
    (loadable : Loadable file (phoffOf file) (phnumOf file))
    (enough :
      ∀ ph ∈ segments file (phoffOf file) (phnumOf file),
        4 *
            ((pageUp ph.finish -
                imageBase
                  (segments file (phoffOf file) (phnumOf file))) /
              4096) ≤
          memory.table.supply.length) :
    ∃ loading,
      loadElf file memory = .ok (some loading) ∧
        Distinct loading.memory ∧
        ∀ ph ∈ segments file (phoffOf file) (phnumOf file),
          Loaded (view loading.memory) file ph := by
  rcases loadable with ⟨size, whole, magic, table, sound, ascending, aligned⟩
  have unit : headerSize.toNat = 56 := rfl
  rw [unit] at table
  have table56 :
      (phoffOf file).toNat + 56 * (0 + phnumOf file) ≤ file.length := by
    rw [Nat.zero_add]
    exact table
  rw [← segmentsFrom_zero] at sound ascending aligned enough ⊢
  rcases
    @loadLoop_progress file (phoffOf file)
      (imageBase (segmentsFrom file (phoffOf file) 0 (phnumOf file)))
      memory.table.supply.length size (phnumOf file) 0 (phoffOf file) []
      { memory := memory, sz := 0, base := 0, stksz := 0, temp := true }
      (by rw [Nat.mul_zero, Nat.add_zero]) table56 (Or.inl ⟨⟨rfl, rfl, rfl, distinct, unmapped, rfl⟩, rfl⟩)
      sound ascending (fun _ _ => Nat.zero_le _)
      (by
        intro _ ph member
        refine ⟨?_, aligned ph member⟩
        unfold imageBase
        rw [Option.mem_def.mp member]
        rfl)
      enough with
    ⟨loading, ran, progress⟩
  rw [List.nil_append] at progress
  have read :
      inodeRead file 0 elfSize = .ok (elfSize, file.take elfSize.toNat) :=
    inodeRead_eq size ((Nat.zero_add _).trans_le whole)
  have start :
      (file.take elfSize.toNat).take 5 = identification := by
    rw [List.take_take]
    exact magic
  refine ⟨loading, ?_, ?_⟩
  · unfold loadElf
    rw [read, ok_bind]
    dsimp only
    rw [if_neg (not_not.mpr rfl), if_neg (not_not.mpr start)]
    change (load file memory (phoffOf file) (phnumOf file) >>= _) = _
    unfold load
    rw [ran]
    rfl
  · rcases progress with ⟨starting, none_⟩ | running
    · rw [none_]
      exact ⟨starting.distinct, fun ph member =>
        absurd member List.not_mem_nil⟩
    · exact ⟨running.distinct, running.loaded⟩

/-- An executable with two segments which share a page. -/
def twoSegments : List UInt8 :=
  identification ++ List.replicate 27 0 ++
    -- `e_phoff` is 64, and `e_phnum` is 2.
    ([64, 0, 0, 0, 0, 0, 0, 0] ++ List.replicate 16 0 ++
      [2, 0, 0, 0, 0, 0, 0, 0]) ++
    -- Four bytes from 176 on go to `0x1000`, and then there are four zeros.
    ([1, 0, 0, 0, 0, 0, 0, 0] ++ [176, 0, 0, 0, 0, 0, 0, 0] ++
      [0, 16, 0, 0, 0, 0, 0, 0] ++ List.replicate 8 0 ++
      [4, 0, 0, 0, 0, 0, 0, 0] ++ [8, 0, 0, 0, 0, 0, 0, 0] ++
      List.replicate 8 0) ++
    -- Two bytes from 180 on go to `0x1008`.
    ([1, 0, 0, 0, 0, 0, 0, 0] ++ [180, 0, 0, 0, 0, 0, 0, 0] ++
      [8, 16, 0, 0, 0, 0, 0, 0] ++ List.replicate 8 0 ++
      [2, 0, 0, 0, 0, 0, 0, 0] ++ [2, 0, 0, 0, 0, 0, 0, 0] ++
      List.replicate 8 0) ++
    [10, 20, 30, 40, 50, 60]

theorem segments_twoSegments :
    segments twoSegments (phoffOf twoSegments) (phnumOf twoSegments) =
      [{ type := 1, offset := 176, vaddr := 0x1000, filesz := 4, memsz := 8 },
        { type := 1, offset := 180, vaddr := 0x1008, filesz := 2,
          memsz := 2 }] := by
  decide +kernel

theorem loadable_twoSegments :
    Loadable twoSegments (phoffOf twoSegments) (phnumOf twoSegments) := by
  have sound :
      ∀ ph ∈
          segments twoSegments (phoffOf twoSegments) (phnumOf twoSegments),
        ph.Sound twoSegments := by
    rw [segments_twoSegments]
    intro ph member
    rcases List.mem_cons.mp member with rfl | member
    · exact ⟨by decide, by decide, by decide, by decide +kernel⟩
    · rw [List.mem_singleton.mp member]
      exact ⟨by decide, by decide, by decide, by decide +kernel⟩
  refine ⟨by decide +kernel, by decide +kernel, by decide +kernel,
    by decide +kernel, sound, ?_, ?_⟩
  · rw [segments_twoSegments, List.pairwise_pair]
    decide
  · rw [segments_twoSegments]
    intro ph member
    cases member
    decide

theorem loadElf_loads_twoSegments :
    ∃ table loading,
      initPgdir (fun _ => 0x55) (freePages 10) = .ok table ∧
        loadElf twoSegments { table := table, bytes := fun _ => 0xAA } =
          .ok (some loading) ∧
        view loading.memory 0x1003 = some 40 ∧
        view loading.memory 0x1007 = some 0 ∧
        view loading.memory 0x1009 = some 60 := by
  rcases @exists_new 10 (by decide) (by decide) (fun _ => 0x55)
    (fun _ => 0xAA) with ⟨table, made, length, distinct, unmapped⟩
  rcases
    loadElf_loads twoSegments { table := table, bytes := fun _ => 0xAA }
      distinct unmapped loadable_twoSegments (by
        rw [segments_twoSegments]
        change ∀ ph ∈ _, _ ≤ table.supply.length
        intro ph member
        rcases List.mem_cons.mp member with rfl | member
        · exact le_trans (show _ ≤ 4 by decide) (by omega)
        · rw [List.mem_singleton.mp member]
          exact le_trans (show _ ≤ 4 by decide) (by omega)) with
    ⟨loading, ran, -, loaded⟩
  rw [segments_twoSegments] at loaded
  refine ⟨table, loading, made, ran, ?_, ?_, ?_⟩
  · exact (loaded _ List.mem_cons_self 3 (by decide)).trans
      (by decide +kernel)
  · exact (loaded _ List.mem_cons_self 7 (by decide)).trans
      (by decide +kernel)
  · exact (loaded _ (List.mem_cons_of_mem _ List.mem_cons_self) 1
      (by decide)).trans (by decide +kernel)

end FudanOS.Kernel.ElfLoad
