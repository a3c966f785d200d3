import FudanOS.Kernel.Paging
import FudanOS.Library.Views

/-!
# The memory of a user

A page directory with the bytes of the pages which it maps.  The tables are
those of `PageTable`; the bytes of other pages are read and written through
kernel addresses.  `view` is what the process sees.
-/

namespace FudanOS.Kernel.UserMemory

open FudanOS.Aarch64.Mmu
open FudanOS.Library.BitFields
open FudanOS.Library.Views
open FudanOS.Kernel.PageTable
open FudanOS.Kernel.Paging

/-! ## Memories -/

structure Memory where
  /-- The tables; `supply` has the pages which `kalloc_page` will return. -/
  table : PageTable.State
  bytes : Word → UInt8

/-- `USERTOP` -/
def userTop : Word := 0x0001000000000000

/-- `kalloc_page()` -/
def kallocPage (memory : Memory) : Except Unit (Word × Memory) :=
  match memory.table.supply with
  | [] => .error ()
  | page :: rest =>
      .ok
        (page,
          { memory with table := { memory.table with supply := rest } })

/-- `*pte = value` -/
def Memory.store (memory : Memory) (pte value : Word) : Memory :=
  { memory with table := memory.table.store pte value }

/-- `memmove` or `memset` of so many bytes from an address on -/
def Memory.fill (memory : Memory) (target : Word) (length : Nat)
    (data : Nat → UInt8) : Memory :=
  { memory with
    bytes := fun address =>
      if (address - target).toNat < length then
        data (address - target).toNat
      else
        memory.bytes address }

/-- The kernel address of the page which an entry points to. -/
def frame (entry : Word) : Word :=
  p2k (pteAddress entry)

/-- The entry of a virtual address, or 0 when there is none. -/
def entryOf (memory : Memory) (va : Word) : Word :=
  match PageTable.getPte memory.table va false with
  | .ok (some pte, table) => table.memory pte
  | _ => 0

/-- The bytes which a process can read, at addresses below `USERTOP`. -/
def view (memory : Memory) : View UInt8 := fun address =>
  if address < userTop.toNat ∧
      entryOf memory (BitVec.ofNat 64 address) &&& pteValid ≠ 0 then
    some
      (memory.bytes
        (frame (entryOf memory (BitVec.ofNat 64 address)) +
          BitVec.ofNat 64 (address % pageSize)))
  else
    none

/-- The entry of the address is valid. -/
def Mapped (memory : Memory) (address : Nat) : Prop :=
  view memory address ≠ none

/--
The page directory has the tables and the values of the entries.  Mapped pages
are distinct, and neither free nor tables.
-/
structure Formed
    (memory : Memory)
    (tables : List Word → Option Word)
    (values : Word → Word) : Prop where
  shape : Shape memory.table tables values
  distinct :
    ∀ va other, values va &&& pteValid ≠ 0 →
      values other &&& pteValid ≠ 0 →
        frame (values va) = frame (values other) → Agree 12 47 va other
  unused :
    ∀ va, values va &&& pteValid ≠ 0 →
      frame (values va) ∉ memory.table.supply
  apart :
    ∀ va, values va &&& pteValid ≠ 0 →
      ∀ route, tables route ≠ some (frame (values va))

/-- The page is neither free nor a table, and it is not mapped. -/
structure Fresh
    (memory : Memory)
    (tables : List Word → Option Word)
    (values : Word → Word)
    (page : Word) : Prop where
  isPage : IsPage page
  unused : page ∉ memory.table.supply
  noTable : ∀ route, tables route ≠ some page
  unmapped :
    ∀ va, values va &&& pteValid ≠ 0 → frame (values va) ≠ page

/-- A page directory whose mapped pages are distinct. -/
def Distinct (memory : Memory) : Prop :=
  ∃ tables values, Formed memory tables values

/--
A range of user bytes is written.  Mappings are kept, and pages are mapped in
the range only.
-/
structure Writes
    (memory : Memory)
    (start length : Nat)
    (data : Nat → UInt8)
    (after : Memory) : Prop where
  stores : Stores (view memory) start length data (view after)
  entries :
    ∀ address, Mapped memory address →
      entryOf after (BitVec.ofNat 64 address) =
        entryOf memory (BitVec.ofNat 64 address)
  only :
    ∀ address, Mapped after address →
      Mapped memory address ∨
        ∃ written, InRange start length written ∧
          address / pageSize = written / pageSize

/-- What a change of the bytes of a range leaves as it is. -/
structure Keeps
    (memory : Memory)
    (start length : Nat)
    (after : Memory) : Prop where
  mapped : ∀ address, Mapped memory address → Mapped after address
  kept :
    ∀ address, ¬ InRange start length address → Mapped memory address →
      view after address = view memory address
  entries :
    ∀ address, Mapped memory address →
      entryOf after (BitVec.ofNat 64 address) =
        entryOf memory (BitVec.ofNat 64 address)

/-- There is a page for the address, with no byte changed. -/
structure Provides
    (memory : Memory)
    (va page : Word)
    (after : Memory) : Prop where
  distinct : Distinct after
  mapped : Mapped after va.toNat
  points : page = frame (entryOf after va)
  bytes : after.bytes = memory.bytes
  entries :
    ∀ address, Mapped memory address →
      entryOf after (BitVec.ofNat 64 address) =
        entryOf memory (BitVec.ofNat 64 address)
  only :
    ∀ address, Mapped after address →
      Mapped memory address ∨ address / pageSize = va.toNat / pageSize
  spent : memory.table.supply.length ≤ after.table.supply.length + 4

/-- A step of a function has been taken. -/
theorem ok_bind
    {Halt Value Result : Type}
    (value : Value)
    (continuation : Value → Except Halt Result) :
    (Except.ok value >>= continuation) = continuation value :=
  rfl

/-! ## Entries -/

section Entries

variable {left right : Nat}

/-- Addresses below `USERTOP` share an entry when they are in one page. -/
theorem agree_ofNat_iff
    (below : left < userTop.toNat)
    (alsoBelow : right < userTop.toNat) :
    Agree 12 47 (BitVec.ofNat 64 left) (BitVec.ofNat 64 right) ↔
      left / pageSize = right / pageSize := by
  have number :
      ∀ address < userTop.toNat,
        pageOf (BitVec.ofNat 64 address) = address / pageSize := by
    intro address inside
    have top : userTop.toNat = 2 ^ 48 := rfl
    rw [top] at inside
    unfold pageOf pageSize
    rw [BitVec.toNat_ofNat]
    omega
  rw [agree_iff_pageOf, number left below, number right alsoBelow]

end Entries

section Views

variable {memory after : Memory} {address : Nat}

/-- The entries are in the tables, and the bytes of pages do not matter. -/
theorem entryOf_of_table
    (same : after.table = memory.table)
    (va : Word) :
    entryOf after va = entryOf memory va := by
  unfold entryOf
  rw [same]

@[simp]
theorem table_fill
    (memory : Memory)
    (target : Word)
    (length : Nat)
    (data : Nat → UInt8) :
    (memory.fill target length data).table = memory.table :=
  rfl

theorem mapped_iff :
    Mapped memory address ↔
      address < userTop.toNat ∧
        entryOf memory (BitVec.ofNat 64 address) &&& pteValid ≠ 0 := by
  unfold Mapped view
  split_ifs with readable
  · exact ⟨fun _ => readable, fun _ => Option.some_ne_none _⟩
  · exact ⟨fun impossible => absurd rfl impossible,
      fun inside => absurd inside readable⟩

theorem view_of_mapped
    (mapped : Mapped memory address) :
    view memory address =
      some
        (memory.bytes
          (frame (entryOf memory (BitVec.ofNat 64 address)) +
            BitVec.ofNat 64 (address % pageSize))) := by
  unfold view
  rw [if_pos (mapped_iff.mp mapped)]

end Views

namespace Writes

variable
    {memory middle after : Memory}
    {start length more : Nat}
    {data rest : Nat → UInt8}

theorem nil
    (memory : Memory)
    (start : Nat)
    (data : Nat → UInt8) :
    Writes memory start 0 data memory :=
  ⟨Stores.nil _ start data, fun _ _ => rfl, fun _ mapped => Or.inl mapped⟩

theorem mapped
    (writes : Writes memory start length data after)
    {address : Nat}
    (before : Mapped memory address) :
    Mapped after address :=
  writes.stores.readable before

theorem append
    (first : Writes memory start length data middle)
    (second :
      Writes middle (start + length) more
        (fun offset => data (length + offset)) after) :
    Writes memory start (length + more) data after := by
  refine ⟨first.stores.append second.stores, ?_, ?_⟩
  · intro address mapped
    rw [second.entries address (first.mapped mapped),
      first.entries address mapped]
  · intro address mapped
    rcases second.only address mapped with already | ⟨at_, inside, page⟩
    · rcases first.only address already with before | ⟨at_, inside, page⟩
      · exact Or.inl before
      · refine Or.inr ⟨at_, ?_, page⟩
        unfold InRange at inside ⊢
        omega
    · refine Or.inr ⟨at_, ?_, page⟩
      unfold InRange at inside ⊢
      omega

theorem keeps
    (writes : Writes memory start length data after) :
    Keeps memory start length after :=
  ⟨fun _ mapped => writes.mapped mapped, writes.stores.kept,
    writes.entries⟩

end Writes

section Provided

variable
    {memory after : Memory}
    {va : Word}

/-- A process sees the same before its bytes are written. -/
theorem Provides.view
    {page : Word}
    (provides : Provides memory va page after)
    {address : Nat}
    (mapped : Mapped memory address) :
    view after address = view memory address := by
  have inside := mapped_iff.mp mapped
  have same := provides.entries address mapped
  have kept : Mapped after address := by
    rw [mapped_iff, same]
    exact inside
  rw [view_of_mapped kept, view_of_mapped mapped, same, provides.bytes]

theorem Provides.keeps
    {page : Word}
    (provides : Provides memory va page after) :
    Keeps memory 0 0 after := by
  refine ⟨?_, ?_, provides.entries⟩
  · intro address mapped
    unfold Mapped
    rw [provides.view mapped]
    exact mapped
  · intro address _ mapped
    exact provides.view mapped

/-- Bytes of the page are written after it has been mapped. -/
theorem Provides.writes
    {page : Word}
    {middle : Memory}
    {length : Nat}
    {data : Nat → UInt8}
    (provides : Provides memory va page middle)
    (positive : 0 < length)
    (writes : Writes middle va.toNat length data after) :
    Writes memory va.toNat length data after := by
  have kept := provides.keeps.mapped
  refine ⟨⟨writes.stores.written, ?_⟩, ?_, ?_⟩
  · intro address outside mapped
    rw [writes.stores.kept address outside (kept address mapped),
      provides.view mapped]
  · intro address mapped
    rw [writes.entries address (kept address mapped),
      provides.entries address mapped]
  · intro address mapped
    rcases writes.only address mapped with there | written
    · rcases provides.only address there with before | page
      · exact Or.inl before
      · refine Or.inr ⟨va.toNat, ?_, page⟩
        unfold InRange
        omega
    · exact Or.inr written

end Provided

namespace Keeps

variable
    {memory middle after : Memory}
    {start length other more : Nat}

theorem refl (memory : Memory) (start length : Nat) :
    Keeps memory start length memory :=
  ⟨fun _ mapped => mapped, fun _ _ _ => rfl, fun _ _ => rfl⟩

theorem trans
    (first : Keeps memory start length middle)
    (second : Keeps middle start length after) :
    Keeps memory start length after := by
  refine ⟨?_, ?_, ?_⟩
  · intro address mapped
    exact second.mapped address (first.mapped address mapped)
  · intro address outside mapped
    rw [second.kept address outside (first.mapped address mapped),
      first.kept address outside mapped]
  · intro address mapped
    rw [second.entries address (first.mapped address mapped),
      first.entries address mapped]

theorem mono
    (keeps : Keeps memory start length after)
    (left : other ≤ start)
    (right : start + length ≤ other + more) :
    Keeps memory other more after := by
  refine ⟨keeps.mapped, ?_, keeps.entries⟩
  intro address outside mapped
  apply keeps.kept address _ mapped
  unfold InRange at outside ⊢
  omega

/-- What lies outside of the range is as before. -/
theorem lies
    (keeps : Keeps memory start length after)
    {bytes : List UInt8}
    (there : Lies (view memory) other bytes)
    (apart : other + bytes.length ≤ start ∨ start + length ≤ other) :
    Lies (view after) other bytes := by
  intro offset inside
  rw [keeps.kept, there offset inside]
  · unfold InRange
    omega
  · apply there.readable
    unfold InRange
    omega

end Keeps

theorem mapped_of_table
    {memory after : Memory}
    (same : after.table = memory.table)
    (address : Nat) :
    Mapped after address ↔ Mapped memory address := by
  rw [mapped_iff, mapped_iff, entryOf_of_table same]

/-- A byte of a page lies in a range of a page. -/
theorem offset_lt_iff
    {page other : Word}
    (isPage : IsPage page)
    (isOther : IsPage other)
    {start length offset : Nat}
    (inside : start + length ≤ pageSize)
    (below : offset < pageSize) :
    (other + BitVec.ofNat 64 offset -
        (page + BitVec.ofNat 64 start)).toNat < length ↔
      other = page ∧ InRange start length offset := by
  have bounds := isPage.bounds
  have otherBounds := isOther.bounds
  rw [← BitVec.toNat_inj]
  by_cases full : start < pageSize
  · rw [BitVec.toNat_sub, toNat_offset isPage full,
      toNat_offset isOther below]
    unfold InRange
    unfold pageSize at inside below
    omega
  · have none_ : length = 0 := by omega
    unfold InRange
    omega

namespace Formed

variable
    {memory after : Memory}
    {tables : List Word → Option Word}
    {values : Word → Word}
    {va page table : Word}

theorem holds
    (formed : Formed memory tables values) :
    Holds memory.table tables values :=
  ⟨memory.table.supply, formed.shape⟩

theorem entryOf
    (formed : Formed memory tables values)
    (va : Word) :
    entryOf memory va = values va := by
  unfold UserMemory.entryOf
  cases formed.holds.finds va with
  | entry table here called value =>
      rw [called]
      exact value
  | nothing called value _ =>
      rw [called]
      exact value.symm

/-- Two mapped addresses with one page behind them are in one page. -/
theorem samePage
    (formed : Formed memory tables values)
    {left right : Nat}
    (first : Mapped memory left)
    (second : Mapped memory right)
    (same :
      frame (UserMemory.entryOf memory (BitVec.ofNat 64 left)) =
        frame (UserMemory.entryOf memory (BitVec.ofNat 64 right))) :
    left / pageSize = right / pageSize := by
  have inside := mapped_iff.mp first
  have alsoInside := mapped_iff.mp second
  rw [formed.entryOf] at inside alsoInside same
  rw [formed.entryOf] at same
  rw [← agree_ofNat_iff inside.1 alsoInside.1]
  exact formed.distinct _ _ inside.2 alsoInside.2 same

/-- Bytes in pages do not matter for the page directory. -/
theorem bytes
    (formed : Formed memory tables values)
    (table : after.table = memory.table) :
    Formed after tables values := by
  refine ⟨?_, formed.distinct, ?_, formed.apart⟩
  · rw [table]
    exact formed.shape
  · rw [table]
    exact formed.unused

/-- `get_pte` with `alloc` makes tables from free pages. -/
theorem getPte
    (formed : Formed memory tables values)
    {pte : Option Word}
    {target : PageTable.State}
    (called : PageTable.getPte memory.table va true = .ok (pte, target)) :
    ∃ after table,
      Formed { memory with table := target } after values ∧
        after (path va 3) = some table ∧
        pte = some (entryAddress table (part va 3)) ∧
        ∀ page, Fresh memory tables values page →
          Fresh { memory with table := target } after values page := by
  rcases reaches_getPte formed.shape called with
    ⟨found, after, reached, leads⟩
  cases found with
  | none => exact absurd rfl (reached.made rfl)
  | some table =>
      rcases reached.consumes.pages with ⟨taken, split, tablesAfter⟩
      refine ⟨after, table, ⟨reached.shape, formed.distinct, ?_, ?_⟩,
        reached.leads.symm, leads, ?_⟩
      · intro other valid member
        apply formed.unused other valid
        rw [split]
        exact List.mem_append_right taken member
      · intro other valid route there
        rcases (tablesAfter _).mp ⟨route, there⟩ with ⟨old, before⟩ | new
        · exact formed.apart other valid old before
        · apply formed.unused other valid
          rw [split]
          exact List.mem_append_left _ new
      · rintro page ⟨isPage, unused, noTable, unmapped⟩
        rw [split, List.mem_append, not_or] at unused
        refine ⟨isPage, unused.2, ?_, unmapped⟩
        intro route there
        rcases (tablesAfter _).mp ⟨route, there⟩ with ⟨old, before⟩ | new
        · exact noTable old before
        · exact unused.1 new

/-- The first free page is taken. -/
theorem take
    (formed : Formed memory tables values)
    {rest : List Word}
    (offered : memory.table.supply = page :: rest) :
    Formed { memory with table := { memory.table with supply := rest } }
        tables values ∧
      Fresh { memory with table := { memory.table with supply := rest } }
        tables values page := by
  have shape := formed.shape
  have first : page ∈ memory.table.supply := by
    rw [offered]
    exact List.mem_cons_self
  have nodup := shape.nodup
  rw [offered, List.nodup_cons] at nodup
  refine ⟨⟨shape.offered offered, formed.distinct, ?_, formed.apart⟩,
    shape.pages page first, nodup.1, ?_, ?_⟩
  · intro va valid member
    apply formed.unused va valid
    rw [offered]
    exact List.mem_cons_of_mem page member
  · intro route there
    exact (shape.used route page there).2 first
  · rintro va valid rfl
    exact formed.unused va valid first

/-- A page which is in no use is mapped. -/
theorem map
    (formed : Formed memory tables values)
    (fresh : Fresh memory tables values page)
    (here : tables (path va 3) = some table) :
    Formed
      (memory.store (entryAddress table (part va 3))
        (k2p page ||| pteUserData))
      tables
      fun other =>
        if Agree 12 47 va other then
          k2p page ||| pteUserData
        else
          values other := by
  have points : frame (k2p page ||| pteUserData) = page :=
    follow_userData fresh.isPage
  refine ⟨formed.shape.write here _, ?_, ?_, ?_⟩
  · intro left right valid alsoValid same
    by_cases first : Agree 12 47 va left
    · by_cases second : Agree 12 47 va right
      · exact first.symm.trans second
      · rw [if_pos first, if_neg second, points] at same
        rw [if_neg second] at alsoValid
        exact absurd same.symm (fresh.unmapped right alsoValid)
    · rw [if_neg first] at valid same
      by_cases second : Agree 12 47 va right
      · rw [if_pos second, points] at same
        exact absurd same (fresh.unmapped left valid)
      · rw [if_neg second] at alsoValid same
        exact formed.distinct left right valid alsoValid same
  · intro other valid member
    by_cases new : Agree 12 47 va other
    · rw [if_pos new, points] at member
      exact fresh.unused member
    · rw [if_neg new] at valid member
      exact formed.unused other valid member
  · intro other valid route there
    by_cases new : Agree 12 47 va other
    · rw [if_pos new, points] at there
      exact fresh.noTable route there
    · rw [if_neg new] at valid there
      exact formed.apart other valid route there

/-- A mapped page is mapped up to its end. -/
theorem mapped_add
    (formed : Formed memory tables values)
    {start offset : Nat}
    (mapped : Mapped memory start)
    (inside : start % pageSize + offset < pageSize) :
    Mapped memory (start + offset) ∧
      UserMemory.entryOf memory (BitVec.ofNat 64 (start + offset)) =
        UserMemory.entryOf memory (BitVec.ofNat 64 start) ∧
      (start + offset) % pageSize = start % pageSize + offset := by
  rcases mapped_iff.mp mapped with ⟨bound, valid⟩
  have top : userTop.toNat = 2 ^ 48 := rfl
  rw [top] at bound
  unfold pageSize at inside
  have next : start + offset < userTop.toNat := by
    rw [top]
    omega
  have agree :
      Agree 12 47 (BitVec.ofNat 64 (start + offset))
        (BitVec.ofNat 64 start) := by
    rw [agree_ofNat_iff next (top ▸ bound)]
    unfold pageSize
    omega
  have same :
      UserMemory.entryOf memory (BitVec.ofNat 64 (start + offset)) =
        UserMemory.entryOf memory (BitVec.ofNat 64 start) := by
    rw [formed.entryOf, formed.entryOf]
    exact formed.holds.congr agree
  refine ⟨mapped_iff.mpr ⟨next, ?_⟩, same, ?_⟩
  · rw [same]
    exact valid
  · unfold pageSize
    omega

/-- What a mapped address reads after bytes of another one's page changed. -/
theorem view_fill
    (formed : Formed memory tables values)
    {start length : Nat}
    (mapped : Mapped memory start)
    (inside : start % pageSize + length ≤ pageSize)
    (data : Nat → UInt8)
    {address : Nat}
    (there : Mapped memory address) :
    view
        (memory.fill
          (frame (UserMemory.entryOf memory (BitVec.ofNat 64 start)) +
            BitVec.ofNat 64 (start % pageSize)) length data)
        address =
      if InRange start length address then
        some (data (address - start))
      else
        view memory address := by
  have positive : 0 < pageSize := by decide
  have isStart := mapped_iff.mp mapped
  have isPage (va : Word) :
      IsPage (frame (UserMemory.entryOf memory va)) :=
    isPage_pteAddress _
  have bytes :=
    offset_lt_iff (isPage (BitVec.ofNat 64 start))
      (isPage (BitVec.ofNat 64 address)) inside
      (Nat.mod_lt address positive)
  rw [view_of_mapped ((mapped_of_table (table_fill ..) address).mpr there),
    entryOf_of_table (table_fill ..), view_of_mapped there]
  unfold Memory.fill
  dsimp only
  by_cases within : InRange start length address
  · rw [if_pos within]
    have offset : address = start + (address - start) :=
      (Nat.add_sub_cancel' within.1).symm
    have below : address - start < length := by
      unfold InRange at within
      omega
    rcases formed.mapped_add mapped
      (show start % pageSize + (address - start) < pageSize by omega) with
      ⟨_, same, position⟩
    rw [← offset] at same position
    rw [same] at bytes ⊢
    have hit := bytes.mpr ⟨rfl, by
      unfold InRange
      omega⟩
    rw [if_pos hit]
    congr 2
    have room : start % pageSize < pageSize := Nat.mod_lt start positive
    have full : address % pageSize < pageSize :=
      Nat.mod_lt address positive
    have page := isPage (BitVec.ofNat 64 start)
    have bounds := page.bounds
    rw [BitVec.toNat_sub, toNat_offset page room, toNat_offset page full]
    unfold pageSize at room full position ⊢
    omega
  · rw [if_neg within, if_neg]
    intro hit
    rcases bytes.mp hit with ⟨same, position⟩
    apply within
    have pages := formed.samePage there mapped same
    have left := Nat.div_add_mod address pageSize
    have right := Nat.div_add_mod start pageSize
    unfold InRange at position ⊢
    rw [pages] at left
    omega

/-- The range lies in a page which is mapped, and is overwritten there. -/
theorem fill
    (formed : Formed memory tables values)
    {start length : Nat}
    (mapped : Mapped memory start)
    (inside : start % pageSize + length ≤ pageSize)
    (data : Nat → UInt8) :
    Writes memory start length data
      (memory.fill
        (frame (UserMemory.entryOf memory (BitVec.ofNat 64 start)) +
          BitVec.ofNat 64 (start % pageSize)) length data) := by
  refine ⟨⟨?_, ?_⟩, ?_, ?_⟩
  · intro offset below
    have there : Mapped memory (start + offset) :=
      (formed.mapped_add mapped (by omega)).1
    rw [formed.view_fill mapped inside data there, if_pos,
      Nat.add_sub_cancel_left]
    exact ⟨Nat.le_add_right _ _, Nat.add_lt_add_left below start⟩
  · intro address outside there
    rw [formed.view_fill mapped inside data there, if_neg outside]
  · intro address _
    exact entryOf_of_table (table_fill ..) _
  · intro address there
    exact Or.inl ((mapped_of_table (table_fill ..) address).mp there)

/-- A fresh page is mapped at an address which had none. -/
theorem provides
    (formed : Formed memory tables values)
    {target : PageTable.State}
    {more : List Word → Option Word}
    (below : va.toNat < userTop.toNat)
    (unmapped : ¬ values va &&& pteValid ≠ 0)
    (found : Formed { memory with table := target } more values)
    (fresh : Fresh { memory with table := target } more values page)
    (here : more (path va 3) = some table)
    (spent : memory.table.supply.length ≤ target.supply.length + 4) :
    Provides memory va page
      (Memory.store { memory with table := target }
        (entryAddress table (part va 3)) (k2p page ||| pteUserData)) := by
  have mapped := found.map fresh here
  have isEntry : UserMemory.entryOf _ va = _ := mapped.entryOf va
  rw [if_pos (show Agree 12 47 va va from fun _ _ _ => rfl)] at isEntry
  refine ⟨⟨more, _, mapped⟩, ?_, ?_, rfl, ?_, ?_, spent⟩
  · rw [mapped_iff, BitVec.ofNat_toNat, BitVec.setWidth_eq, isEntry]
    exact ⟨below, valid_pteUserData _⟩
  · rw [isEntry]
    exact (follow_userData fresh.isPage).symm
  · intro address before
    have inside := mapped_iff.mp before
    rw [mapped.entryOf, formed.entryOf, if_neg]
    intro agree
    rw [formed.entryOf, ← formed.holds.congr agree] at inside
    exact unmapped inside.2
  · intro address after
    have inside := mapped_iff.mp after
    rw [mapped.entryOf] at inside
    by_cases agree : Agree 12 47 va (BitVec.ofNat 64 address)
    · refine Or.inr ?_
      rw [← agree_ofNat_iff inside.1 below, BitVec.ofNat_toNat,
        BitVec.setWidth_eq]
      exact agree.symm
    · rw [if_neg agree] at inside
      rw [mapped_iff, formed.entryOf]
      exact Or.inl inside

end Formed

/-! ## Writes through user addresses -/

/-- A write to a user address; `none` where no page is mapped. -/
def storeByte (memory : Memory) (address : Nat) (byte : UInt8) :
    Option Memory :=
  if (view memory address).isSome then
    some
      (memory.fill
        (frame (entryOf memory (BitVec.ofNat 64 address)) +
          BitVec.ofNat 64 (address % pageSize)) 1 fun _ => byte)
  else
    none

def storeBytes (memory : Memory) (address : Nat) :
    List UInt8 → Option Memory
  | [] => some memory
  | byte :: bytes => do
      let memory ← storeByte memory address byte
      storeBytes memory (address + 1) bytes

/-- The bytes of a list, as a function of offsets. -/
def contents (bytes : List UInt8) (offset : Nat) : UInt8 :=
  bytes.getD offset 0

section Bytes

variable {memory : Memory} {address : Nat}

theorem getElem?_contents
    {bytes : List UInt8}
    {offset : Nat}
    (inside : offset < bytes.length) :
    bytes[offset]? = some (contents bytes offset) := by
  unfold contents
  rw [List.getD_eq_getElem?_getD, List.getElem?_eq_getElem inside]
  rfl

theorem Writes.lies
    {after : Memory}
    {bytes : List UInt8}
    (writes :
      Writes memory address bytes.length (contents bytes) after) :
    Lies (view after) address bytes :=
  writes.stores.lies fun _ inside => getElem?_contents inside

/-- Bytes can be written where pages are mapped. -/
theorem storeBytes_writes
    (bytes : List UInt8)
    (distinct : Distinct memory)
    (mapped :
      ∀ other, InRange address bytes.length other → Mapped memory other) :
    ∃ after,
      storeBytes memory address bytes = some after ∧ Distinct after ∧
        after.table = memory.table ∧
        Writes memory address bytes.length (contents bytes) after := by
  induction bytes generalizing memory address with
  | nil => exact ⟨memory, rfl, distinct, rfl, Writes.nil memory _ _⟩
  | cons byte bytes ih =>
      rcases distinct with ⟨tables, values, formed⟩
      have first : Mapped memory address := by
        apply mapped
        unfold InRange
        rw [List.length_cons]
        omega
      have room : address % pageSize + 1 ≤ pageSize :=
        Nat.succ_le_of_lt (Nat.mod_lt address (by decide))
      have writes := formed.fill first room fun _ => byte
      generalize stored :
        memory.fill
          (frame (entryOf memory (BitVec.ofNat 64 address)) +
            BitVec.ofNat 64 (address % pageSize)) 1 (fun _ => byte) =
          middle at writes
      have table : middle.table = memory.table := by
        rw [← stored]
        exact table_fill ..
      rcases
        @ih middle (address + 1) ⟨tables, values, formed.bytes table⟩
          (by
            intro other inside
            apply writes.mapped
            apply mapped
            unfold InRange at inside ⊢
            rw [List.length_cons]
            omega) with
        ⟨after, ran, distinct, same, rest⟩
      refine ⟨after, ?_, distinct, same.trans table, ?_⟩
      · unfold storeBytes storeByte
        rw [if_pos (Option.isSome_iff_ne_none.mpr first), stored]
        exact ran
      · have one : Writes memory address 1 (contents (byte :: bytes))
            middle :=
          ⟨writes.stores.congr fun offset inside => by
              rw [Nat.lt_one_iff.mp inside]
              rfl,
            writes.entries, writes.only⟩
        have more :
            Writes middle (address + 1) bytes.length
              (fun offset => contents (byte :: bytes) (1 + offset))
              after := by
          refine ⟨rest.stores.congr fun offset _ => ?_, rest.entries,
            rest.only⟩
          rw [Nat.add_comm 1 offset]
          rfl
        rw [List.length_cons, Nat.add_comm]
        exact one.append more

end Bytes

/-! ## New page directories -/

section New

/-- Nothing is mapped by a page directory which `init_pgdir` has made. -/
theorem formed_initPgdir
    {words : Word → Word}
    {supply : List Word}
    {table : PageTable.State}
    (pages : ∀ page ∈ supply, IsPage page)
    (nodup : supply.Nodup)
    (made : initPgdir words supply = .ok table)
    (bytes : Word → UInt8) :
    supply.length = table.supply.length + 1 ∧
      ∃ tables,
        Formed { table := table, bytes := bytes } tables fun _ => 0 := by
  rcases shape_initPgdir pages nodup made with
    ⟨page, rest, all, left, shape⟩
  have invalid : ¬ (0 : Word) &&& pteValid ≠ 0 := by decide
  refine ⟨?_, onlyRoot page, shape, fun _ _ valid => absurd valid invalid,
    fun _ valid => absurd valid invalid,
    fun _ valid => absurd valid invalid⟩
  rw [all, left, List.length_cons]

/-- So many pages from the physical address 1 MiB on. -/
def freePages (count : Nat) : List Word :=
  (List.range count).map fun index =>
    p2k (BitVec.ofNat 64 (0x100000 + 4096 * index))

theorem length_freePages (count : Nat) : (freePages count).length = count := by
  unfold freePages
  rw [List.length_map, List.length_range]

theorem isPage_of_mem_freePages
    {count : Nat}
    (bound : count ≤ 2 ^ 32) :
    ∀ page ∈ freePages count, IsPage page := by
  intro page member
  rcases List.mem_map.mp member with ⟨index, inside, rfl⟩
  rw [List.mem_range] at inside
  refine ⟨_, rfl, pteFlags_eq_zero ?_ ?_⟩
  · rw [BitVec.toNat_ofNat]
    omega
  · rw [BitVec.toNat_ofNat]
    omega

theorem nodup_freePages
    {count : Nat}
    (bound : count ≤ 2 ^ 32) :
    (freePages count).Nodup := by
  apply List.Nodup.map_on _ List.nodup_range
  intro left leftInside right rightInside same
  rw [List.mem_range] at leftInside rightInside
  have physical := congrArg (fun page => (k2p page).toNat) same
  simp only [k2p_p2k, BitVec.toNat_ofNat] at physical
  omega

/-- A new page directory, with so many free pages. -/
theorem exists_new
    {count : Nat}
    (positive : 0 < count)
    (bound : count ≤ 2 ^ 32)
    (words : Word → Word)
    (bytes : Word → UInt8) :
    ∃ table,
      initPgdir words (freePages count) = .ok table ∧
        count = table.supply.length + 1 ∧
        Distinct { table := table, bytes := bytes } ∧
        ∀ address,
          ¬ Mapped { table := table, bytes := bytes } address := by
  have some_ : freePages count ≠ [] := by
    intro empty
    have length := length_freePages count
    rw [empty] at length
    exact absurd length (Nat.ne_of_lt positive)
  rcases List.exists_cons_of_ne_nil some_ with ⟨page, rest, offered⟩
  have made :
      ∃ table, initPgdir words (freePages count) = .ok table := by
    unfold initPgdir newTable
    rw [offered]
    exact ⟨_, rfl⟩
  rcases made with ⟨table, made⟩
  rcases formed_initPgdir (isPage_of_mem_freePages bound)
    (nodup_freePages bound) made bytes with ⟨length, tables, formed⟩
  rw [length_freePages] at length
  refine ⟨table, made, length, ⟨tables, _, formed⟩, ?_⟩
  intro address mapped
  have valid := (mapped_iff.mp mapped).2
  rw [formed.entryOf] at valid
  exact valid (by decide)

end New

end FudanOS.Kernel.UserMemory
