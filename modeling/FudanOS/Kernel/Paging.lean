import FudanOS.Kernel.PageTable
import FudanOS.Kernel.Pages

/-!
# Sections and page faults

`sbrk`, `user_page_alloc`, `load_swapped_pages` and `pgfault_handler` of
`kernel/paging.c`, with `kalloc_page` and `kfree_page` as one CPU sees them.
The sections of a page directory stand in the order in which `_for_in_list`
visits them.  `attach_pgdir` and the invalidation of the TLB are left out.
-/

namespace FudanOS.Kernel.Paging

open FudanOS.Aarch64.Mmu
open FudanOS.Library.BitFields
open FudanOS.Kernel.PageTable

/-! ## Sections and pages -/

/-- `ST_SWAP` -/
def stSwap : Word := 1 <<< 1

/-- `struct section`, as far as these functions use it -/
structure Section where
  flags : Word
  begin : Word
  end_ : Word
  /-- The value of the semaphore. -/
  sleepLock : Nat
  deriving DecidableEq

/-- A process with its page directory, and the allocator of pages. -/
structure Space where
  /-- The tables; `supply` is the queue of the free pages. -/
  table : PageTable.State
  refpage : Nat → Int
  kallocPageCnt : Int
  pagenum : Int
  sections : List Section
  killed : Bool

/-- Why a function does not return. -/
inductive Halt where
  | assertion
  /-- A page is taken from the empty queue, or `NULL` is written to. -/
  | null
  /-- The index into `refpage` is too large. -/
  | overrun
  /-- `unalertable_wait_sem` does not return. -/
  | sleeps
  /-- A loop does not end. -/
  | spins
  deriving DecidableEq

/-- The index into `refpage`. -/
def pageIndex (page : Word) : Nat :=
  (k2p page).toNat / pageSize

/-- What `kalloc_page` does to the counters. -/
def Space.count (space : Space) (page : Word) : Space :=
  { space with
    kallocPageCnt := space.kallocPageCnt + 1
    refpage :=
      Function.update space.refpage (pageIndex page)
        (space.refpage (pageIndex page) + 1) }

/-- `kalloc_page()` -/
def kallocPage (space : Space) : Except Halt (Word × Space) :=
  match space.table.supply with
  | [] => .error .null
  | page :: rest =>
      .ok
        (page,
          ({ space with table := { space.table with supply := rest } }
            : Space).count page)

/-- `kfree_page(p)` -/
def kfreePage (space : Space) (p : Word) : Except Halt Space :=
  if Pages.physPages ≤ pageIndex p then
    .error .overrun
  else
    let space :=
      { space with
        refpage :=
          Function.update space.refpage (pageIndex p)
            (space.refpage (pageIndex p) - 1) }
    if space.refpage (pageIndex p) = 0 then
      .ok
        { space with
          kallocPageCnt := space.kallocPageCnt - 1
          table :=
            { space.table with supply := p :: space.table.supply } }
    else
      .ok space

/-- `get_pte(pd, va, alloc)`, with the pages which it takes for tables -/
def getPte (space : Space) (va : Word) (alloc : Bool) :
    Except Halt (Option Word × Space) :=
  match PageTable.getPte space.table va alloc with
  | .error _ => .error .null
  | .ok (pointer, table) =>
      let before := space.table.supply
      let taken := before.take (before.length - table.supply.length)
      .ok
        (pointer,
          { taken.foldl Space.count space with table := table })

/-- `*pte = value` -/
def Space.store (space : Space) (pointer value : Word) : Space :=
  { space with table := space.table.store pointer value }

/-! ## `sbrk` -/

/-- One iteration of the loop of `sbrk`. -/
def freeEntry (space : Space) (va : Word) : Except Halt Space := do
  let (pte, space) ← getPte space va false
  match pte with
  | none => return space
  | some pte =>
      let entry := space.table.memory pte
      if entry = 0 then
        return space
      else
        let space ← kfreePage space (p2k (entry &&& -4096))
        return space.store pte 0

/-- The loop of `sbrk` from an address on, with the number of pages to go. -/
def freeEntries : Nat → Word → Space → Except Halt Space
  | 0, _, space => .ok space
  | left + 1, va, space => do
      let space ← freeEntry space va
      freeEntries left (va + 4096) space

/-- `sbrk(size)` -/
def sbrk (space : Space) (size : Word) : Except Halt (Word × Space) :=
  match space.sections with
  -- `init_sections` has put a section on the list.
  | [] => .error .null
  | sec :: rest => do
      let ans := sec.end_
      let sec := { sec with end_ := sec.end_ + size * 4096 }
      let space := { space with sections := sec :: rest }
      if size.toInt < 0 then
        let space ← freeEntries (-size).toInt.toNat sec.end_ space
        return (ans, space)
      else
        return (ans, space)

/-! ## Page faults -/

/-- `left_page_cnt()`, an unsigned number of 64 bits -/
def leftPageCnt (space : Space) : Int :=
  (space.pagenum - space.kallocPageCnt) % 2 ^ 64

/-- `user_page_alloc()` -/
def userPageAlloc (space : Space) :
    Except Halt (Option Word × Space) := do
  if leftPageCnt space ≤ 1024 then
    return (none, space)
  else
    let (page, space) ← kallocPage space
    return (some page, space)

/-- The bytes of a page are overwritten; `content` is given by offsets. -/
def Space.fill (space : Space) (page : Word) (content : Nat → Word) :
    Space :=
  { space with
    table :=
      { space.table with
        memory := fun address =>
          if InPage page address then
            content (address - page).toNat
          else
            space.table.memory address } }

/-- A block device, as the words at offsets in its blocks. -/
abbrev Device := BitVec 32 → Nat → Word

/-- The pages which `block_device.read` reads into a page, block by block. -/
def swappedPage (device : Device) (bno : BitVec 32) (offset : Nat) : Word :=
  device (bno + BitVec.ofNat 32 (offset / 512)) (offset % 512)

/-- One iteration of the loop of `load_swapped_pages`. -/
def loadEntry (device : Device) (space : Space) (i : Word) :
    Except Halt Space := do
  let (pte, space) ← getPte space i false
  match pte with
  | none => return space
  | some pte =>
      let entry := space.table.memory pte
      if entry = 0 then
        return space
      else
        let bno : BitVec 32 := entry.truncate 32
        match ← userPageAlloc space with
        | (none, _) => throw .null
        | (some newpage, space) =>
            let space := space.fill newpage (swappedPage device bno)
            return space.store pte (k2p newpage ||| pteUserData)

/-- The loop of `load_swapped_pages` when it is at `i`. -/
def loadFrom (device : Device) (end_ : Word) :
    Nat → Word → Space → Except Halt Space
  | 0, _, _ => .error .spins
  | fuel + 1, i, space =>
      if i < end_ then do
        let space ← loadEntry device space i
        loadFrom device end_ fuel (i + 4096) space
      else
        .ok space

/-- After so many pages the loop is where it began. -/
abbrev allPages : Nat := 2 ^ 52

/-- `load_swapped_pages(pd, sec)`, with the index of the section -/
def loadSwappedPages (device : Device) (space : Space) (index : Nat)
    (sec : Section) : Except Halt Space :=
  if sec.flags &&& stSwap = 0 then
    .error .assertion
  else if sec.sleepLock = 0 then
    .error .sleeps
  else do
    let space ←
      loadFrom device sec.end_ (allPages + 1) sec.begin space
    return { space with
      sections :=
        space.sections.set index
          { sec with flags := sec.flags &&& ~~~stSwap } }

/-- The loop of `pgfault_handler` over the sections, with `sec` so far. -/
def chooseSection (addr : Word) :
    List Section → Option (Nat × Section) → Nat → Option (Nat × Section)
  | [], sec, _ => sec
  | sec :: rest, _, index =>
      if sec.begin ≤ addr then
        some (index, sec)
      else
        chooseSection addr rest (some (index, sec)) (index + 1)

/-- What a page fault has done, and the section whose flags it has tested. -/
structure Handled where
  tested : Option Section
  result : Except Halt (Word × Space)

/-- What `pgfault_handler` does with the entry which `get_pte` has found. -/
def handleEntry (device : Device) (space : Space) (index : Nat)
    (sec : Section) (iss pte : Word) : Handled :=
  let entry := space.table.memory pte
  if entry = 0 then
    ⟨some sec, do
      if sec.flags &&& stSwap ≠ 0 then
        let space ← loadSwappedPages device space index sec
        return (iss, space)
      else
        let (page, space) ← userPageAlloc space
        return (iss,
          space.store pte (k2p (page.getD 0) ||| pteUserData))⟩
  else if entry &&& pteRo ≠ 0 then
    ⟨none, do
      let (p, space) ← userPageAlloc space
      let old := p2k (pteAddress entry)
      let space ← kfreePage space old
      match p with
      | none => throw .null
      | some p =>
          let space :=
            space.fill p fun offset =>
              space.table.memory (old + BitVec.ofNat 64 offset)
          return (iss, space.store pte (k2p p ||| pteUserData))⟩
  else if entry &&& pteValid = 0 then
    ⟨some sec, do
      if sec.flags &&& stSwap ≠ 0 then
        let space ← loadSwappedPages device space index sec
        return (iss, space)
      else
        return (iss, space)⟩
  else
    ⟨none, .ok (iss, space)⟩

/-- `pgfault_handler(iss)` when `arch_get_far()` is `addr` -/
def pgfaultHandler (device : Device) (space : Space) (addr iss : Word) :
    Handled :=
  match chooseSection addr space.sections none 0 with
  | none => ⟨none, .error .assertion⟩
  | some (index, sec) =>
      match getPte space addr true with
      | .error halt => ⟨none, .error halt⟩
      | .ok (none, _) => ⟨none, .error .null⟩
      | .ok (some pte, space) => handleEntry device space index sec iss pte

/-- Pages have different indices into `refpage`. -/
theorem pageIndex_inj
    {page other : Word}
    (isPage : IsPage page)
    (isOther : IsPage other)
    (same : pageIndex page = pageIndex other) :
    page = other := by
  have aligned :
      ∀ {page : Word}, IsPage page → (k2p page).toNat % 4096 = 0 := by
    intro page isPage
    have bounds := isPage.bounds
    unfold k2p kspaceMask
    rw [BitVec.toNat_sub]
    change (2 ^ 64 - 0xFFFF000000000000 + page.toNat) % 2 ^ 64 % 4096 = 0
    omega
  have first := aligned isPage
  have second := aligned isOther
  unfold pageIndex pageSize at same
  have physical : k2p page = k2p other := by
    apply BitVec.eq_of_toNat_eq
    omega
  unfold k2p at physical
  exact sub_left_injective physical

/-! ## Entries -/

/-- What `*pte` is for a virtual address, and 0 if there is no entry. -/
def entryAt (space : Space) (va : Word) : Word :=
  match PageTable.getPte space.table va false with
  | .ok (some pte, table) => table.memory pte
  | _ => 0

/-- The number of the page of a virtual address, as `get_pte` sees it. -/
def pageOf (va : Word) : Nat :=
  va.toNat / 4096 % 2 ^ 36

/-- The virtual address of a page. -/
def pageAddress (number : Nat) : Word :=
  BitVec.ofNat 64 (number * 4096)

section Numbers

variable {left right : Word}

/-- `get_pte` looks at the number of the page only. -/
theorem agree_iff_pageOf :
    Agree 12 47 left right ↔ pageOf left = pageOf right := by
  have bits :
      ∀ (va : Word) bit,
        (pageOf va).testBit bit =
          (decide (bit < 36) && va.getLsbD (bit + 12)) := by
    intro va bit
    unfold pageOf
    rw [Nat.testBit_mod_two_pow, show 4096 = 2 ^ 12 from rfl,
      Nat.testBit_div_two_pow]
    rfl
  constructor
  · intro agree
    apply Nat.eq_of_testBit_eq
    intro bit
    rw [bits, bits]
    by_cases below : bit < 36
    · rw [agree (bit + 12) (by omega) (by omega)]
    · rw [decide_eq_false below, Bool.false_and, Bool.false_and]
  · intro same bit above below
    have equal := congrArg (fun number => number.testBit (bit - 12)) same
    have inside : bit - 12 < 36 := by omega
    rw [bits, bits, decide_eq_true inside, Bool.true_and, Bool.true_and,
      Nat.sub_add_cancel above] at equal
    exact equal

theorem pageOf_lt (va : Word) : pageOf va < 2 ^ 36 :=
  Nat.mod_lt _ (by decide)

theorem pageOf_pageAddress
    {number : Nat}
    (below : number < 2 ^ 36) :
    pageOf (pageAddress number) = number := by
  unfold pageOf pageAddress
  rw [BitVec.toNat_ofNat]
  omega

end Numbers

section Entries

variable
    {state : PageTable.State}
    {tables : List Word → Option Word}
    {values : Word → Word}
    {va other : Word}

/-- Without `alloc` nothing changes, and the free pages do not matter. -/
theorem getPte_false
    (state : PageTable.State)
    (va : Word) :
    ∃ pte, ∀ supply,
      PageTable.getPte { state with supply := supply } va false =
        .ok (pte, { state with supply := supply }) := by
  rcases state with ⟨memory, supply, root⟩
  have step :
      ∀ pt index : Word, ∃ found, ∀ supply,
        nextTable ⟨memory, supply, root⟩ pt index false =
          .ok (found, ⟨memory, supply, root⟩) := by
    intro pt index
    by_cases invalid :
        memory (entryAddress pt index) &&& pteValid = 0
    · refine ⟨none, fun supply => ?_⟩
      unfold nextTable
      rw [if_pos invalid]
      rfl
    · refine ⟨some (p2k (pteAddress (memory (entryAddress pt index)))),
        fun supply => ?_⟩
      unfold nextTable
      rw [if_neg invalid]
  unfold PageTable.getPte rootTable
  dsimp only
  cases root with
  | none => exact ⟨none, fun _ => rfl⟩
  | some pt0 =>
      simp only [bind, Except.bind, pure, Except.pure]
      rcases step pt0 (vaPart0 va) with ⟨found, first⟩
      simp only [first]
      cases found with
      | none => exact ⟨none, fun _ => rfl⟩
      | some pt1 =>
          rcases step pt1 (vaPart1 va) with ⟨found, second⟩
          simp only [second]
          cases found with
          | none => exact ⟨none, fun _ => rfl⟩
          | some pt2 =>
              rcases step pt2 (vaPart2 va) with ⟨found, third⟩
              simp only [third]
              cases found with
              | none => exact ⟨none, fun _ => rfl⟩
              | some pt3 => exact ⟨_, fun _ => rfl⟩

/-- The page table holds the values, whatever pages are free. -/
def Holds
    (state : PageTable.State)
    (tables : List Word → Option Word)
    (values : Word → Word) : Prop :=
  ∃ supply, Shape { state with supply := supply } tables values

/-- What `get_pte` finds without `alloc`. -/
inductive Finds
    (state : PageTable.State)
    (tables : List Word → Option Word)
    (values : Word → Word)
    (va : Word) : Prop where
  | entry
      (table : Word)
      (here : tables (path va 3) = some table)
      (called :
        PageTable.getPte state va false =
          .ok (some (entryAddress table (part va 3)), state))
      (value :
        state.memory (entryAddress table (part va 3)) = values va)
  | nothing
      (called : PageTable.getPte state va false = .ok (none, state))
      (value : values va = 0)
      (absent : tables (path va 3) = none)

theorem Holds.finds
    (holds : Holds state tables values)
    (va : Word) :
    Finds state tables values va := by
  rcases holds with ⟨supply, shape⟩
  rcases getPte_false state va with ⟨pte, called⟩
  rcases reaches_getPte shape (called supply) with
    ⟨found, after, reached, leads⟩
  have same := (reached.unchanged rfl).2
  subst same
  have here := reached.leads
  have returned := called state.supply
  rw [leads] at returned
  cases found with
  | none => exact .nothing returned (shape.unwritten va here.symm) here.symm
  | some table =>
      exact .entry table here.symm returned
        (shape.leaf va table here.symm)

theorem Holds.entryAt
    {space : Space}
    (holds : Holds space.table tables values)
    (va : Word) :
    entryAt space va = values va := by
  unfold Paging.entryAt
  cases holds.finds va with
  | entry table here called value =>
      rw [called]
      exact value
  | nothing called value _ =>
      rw [called]
      exact value.symm

/-- Addresses in the same page have the same entry. -/
theorem Holds.congr
    (holds : Holds state tables values)
    (agree : Agree 12 47 va other) :
    values va = values other := by
  rcases holds with ⟨supply, shape⟩
  rcases agree_iff.mp agree with ⟨sameRoute, sameIndex⟩
  cases here : tables (path va 3) with
  | none =>
      rw [shape.unwritten va here]
      rw [sameRoute] at here
      rw [shape.unwritten other here]
  | some table =>
      rw [← shape.leaf va table here, sameIndex]
      rw [sameRoute] at here
      exact shape.leaf other table here

theorem Holds.write
    (holds : Holds state tables values)
    {table : Word}
    (here : tables (path va 3) = some table)
    (value : Word) :
    Holds (state.store (entryAddress table (part va 3)) value) tables
      fun other => if Agree 12 47 va other then value else values other := by
  rcases holds with ⟨supply, shape⟩
  exact ⟨supply, shape.write here value⟩

end Entries

end FudanOS.Kernel.Paging
