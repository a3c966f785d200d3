import FudanOS.Kernel.UserMemory

/-!
# Two page directories in one memory

A process and its child have page directories of their own in one memory, with
one supply of free pages.  `Pair` says that they have neither tables nor pages
in common; it is kept when tables and pages are given to the second one, and
when either process writes to its pages.
-/

namespace FudanOS.Kernel.AddressSpaces

open FudanOS.Aarch64.Mmu
open FudanOS.Library.BitFields
open FudanOS.Library.Views
open FudanOS.Kernel.PageTable
open FudanOS.Kernel.Paging
open FudanOS.Kernel.UserMemory

/-- The memory as the page directory with this first table sees it. -/
def withRoot (memory : Memory) (root : Option Word) : Memory :=
  { memory with table := { memory.table with pt := root } }

/--
The page directories have nothing in common: to the second one, the tables and
pages of the first one are in no use.
-/
structure Pair
    (memory : Memory)
    (root : Option Word)
    (first : List Word → Option Word)
    (firstValues : Word → Word)
    (second : List Word → Option Word)
    (secondValues : Word → Word) : Prop where
  one : Formed (withRoot memory root) first firstValues
  two : Formed memory second secondValues
  tables :
    ∀ route table, first route = some table →
      Fresh memory second secondValues table
  frames :
    ∀ va, firstValues va &&& pteValid ≠ 0 →
      Fresh memory second secondValues (frame (firstValues va))

/-! ## What `get_pte` leaves alone -/

/-- Only the pages which are given are written to. -/
def Within
    (pages : Word → Prop)
    (state target : PageTable.State) : Prop :=
  ∀ address, (∀ page, pages page → ¬ InPage page address) →
    target.memory address = state.memory address

section Frames

variable
    {pages : Word → Prop}
    {state middle target : PageTable.State}
    {tables : List Word → Option Word}
    {values : Word → Word}
    {va : Word}
    {alloc : Bool}

theorem Within.trans
    (first : Within pages state middle)
    (second : Within pages middle target) :
    Within pages state target := by
  intro address outside
  rw [second address outside, first address outside]

/-- A step to the next table writes to the table and to a free page. -/
theorem within_nextTable
    {pt index : Word}
    {found : Option Word}
    (isPage : IsPage pt)
    (below : index.toNat < 512)
    (table : pages pt)
    (free : ∀ page ∈ state.supply, pages page)
    (called : nextTable state pt index alloc = .ok (found, target)) :
    Within pages state target := by
  intro address outside
  unfold nextTable at called
  split_ifs at called with invalid isTrue
  · rcases of_bind called with ⟨⟨page, middle⟩, made, stored⟩
    rcases newTable_eq made with ⟨rest, offered, rfl⟩
    cases stored
    have notTable : address ≠ entryAddress pt index := by
      rintro rfl
      exact outside pt table
        ((inPage_entryAddress isPage isPage below).mpr rfl)
    have notPage : ¬ InPage page address := by
      apply outside page
      apply free
      rw [offered]
      exact List.mem_cons_self
    unfold State.store
    dsimp only
    rw [Function.update_of_ne notTable, if_neg notPage]
  · cases called
    rfl
  · cases called
    rfl

/-- The tables and the free pages of a state. -/
def Owned
    (state : PageTable.State)
    (tables : List Word → Option Word)
    (page : Word) : Prop :=
  page ∈ state.supply ∨ ∃ route, tables route = some page

/-- A walk writes to tables and free pages only. -/
theorem reaches_within
    {start : PageTable.State}
    {initial between : List Word → Option Word}
    {level : Nat}
    {table : Word}
    {found : Option Word}
    (reached :
      Reaches va alloc level start initial values (some table) middle
        between)
    (before : Within (Owned start initial) start middle)
    (called :
      nextTable middle table (part va level) alloc = .ok (found, target)) :
    Within (Owned start initial) start target := by
  rcases reached.consumes.pages with ⟨taken, split, same⟩
  apply before.trans
  apply within_nextTable (reached.shape.used _ _ reached.leads.symm).1
    (part_lt va level) _ _ called
  · rcases (same table).mp ⟨_, reached.leads.symm⟩ with old | new
    · exact Or.inr old
    · left
      rw [split]
      exact List.mem_append_left _ new
  · intro page member
    left
    rw [split]
    exact List.mem_append_right _ member

theorem within_getPte
    {pointer : Option Word}
    (shape : Shape state tables values)
    (called : getPte state va alloc = .ok (pointer, target)) :
    Within (Owned state tables) state target := by
  unfold PageTable.getPte at called
  rcases of_bind called with ⟨⟨found, middle⟩, first, called⟩
  have reached := Reaches.root va shape first
  have before : Within (Owned state tables) state middle := by
    unfold rootTable at first
    cases pt : state.pt with
    | none => exact absurd (shape.root ▸ pt) shape.rooted
    | some table =>
        rw [pt] at first
        cases first
        exact fun _ _ => rfl
  cases found with
  | none =>
      cases called
      exact before
  | some pt0 =>
      dsimp only at called
      rcases of_bind called with ⟨⟨found, middle⟩, second, called⟩
      have before := reaches_within reached before second
      rcases reached.next (by decide) second with ⟨after, reached⟩
      cases found with
      | none =>
          cases called
          exact before
      | some pt1 =>
          dsimp only at called
          rcases of_bind called with ⟨⟨found, middle⟩, third, called⟩
          have before := reaches_within reached before third
          rcases reached.next (by decide) third with ⟨after, reached⟩
          cases found with
          | none =>
              cases called
              exact before
          | some pt2 =>
              dsimp only at called
              rcases of_bind called with ⟨⟨found, middle⟩, fourth, called⟩
              have before := reaches_within reached before fourth
              cases found with
              | none =>
                  cases called
                  exact before
              | some pt3 =>
                  cases called
                  exact before

end Frames

/-! ## The other page directory -/

section Other

variable
    {state target : PageTable.State}
    {tables : List Word → Option Word}
    {values : Word → Word}

/-- A page directory is as before when its tables are. -/
theorem shape_of_entries
    (shape : Shape state tables values)
    (root : target.pt = state.pt)
    (supply : target.supply.Sublist state.supply)
    (same :
      ∀ route table, tables route = some table →
        ∀ index : Word, index.toNat < 512 →
          target.memory (entryAddress table index) =
            state.memory (entryAddress table index)) :
    Shape target tables values := by
  refine ⟨root.trans shape.root, shape.rooted, ?_,
    shape.nodup.sublist supply, ?_, shape.injective, shape.closed, ?_, ?_,
    shape.unwritten⟩
  · intro page member
    exact shape.pages page (supply.subset member)
  · intro route table found
    rcases shape.used route table found with ⟨isPage, unused⟩
    exact ⟨isPage, fun member => unused (supply.subset member)⟩
  · intro va level table inside here
    exact (same _ _ here _ (part_lt va level)).trans
      (shape.inner va level table inside here)
  · intro va table here
    exact (same _ _ here _ (part_lt va 3)).trans (shape.leaf va table here)

end Other

namespace Pair

variable
    {memory after : Memory}
    {root : Option Word}
    {first second : List Word → Option Word}
    {firstValues secondValues : Word → Word}
    {va page table : Word}

/-- Bytes of pages do not matter. -/
theorem bytes
    (pair : Pair memory root first firstValues second secondValues)
    (same : after.table = memory.table) :
    Pair after root first firstValues second secondValues := by
  have other : (withRoot after root).table = (withRoot memory root).table := by
    unfold withRoot
    rw [same]
  have fresh :
      ∀ page, Fresh memory second secondValues page →
        Fresh after second secondValues page := by
    rintro page ⟨isPage, unused, noTable, unmapped⟩
    rw [← same] at unused
    exact ⟨isPage, unused, noTable, unmapped⟩
  exact ⟨pair.one.bytes other, pair.two.bytes same,
    fun route table found => fresh table (pair.tables route table found),
    fun va valid => fresh _ (pair.frames va valid)⟩

/-- A free page is taken, which is in no use by either. -/
theorem take
    (pair : Pair memory root first firstValues second secondValues)
    {rest : List Word}
    (offered : memory.table.supply = page :: rest) :
    Pair { memory with table := { memory.table with supply := rest } } root
        first firstValues second secondValues ∧
      Fresh
        (withRoot
          { memory with table := { memory.table with supply := rest } }
          root)
        first firstValues page ∧
      Fresh { memory with table := { memory.table with supply := rest } }
        second secondValues page := by
  rcases pair.one.take offered with ⟨one, oneFresh⟩
  rcases pair.two.take offered with ⟨two, twoFresh⟩
  have fresh :
      ∀ other, Fresh memory second secondValues other →
        Fresh { memory with table := { memory.table with supply := rest } }
          second secondValues other := by
    rintro other ⟨isPage, unused, noTable, unmapped⟩
    rw [offered] at unused
    exact ⟨isPage, fun member => unused (List.mem_cons_of_mem _ member),
      noTable, unmapped⟩
  exact
    ⟨⟨one, two,
        fun route table found => fresh table (pair.tables route table found),
        fun va valid => fresh _ (pair.frames va valid)⟩,
      oneFresh, twoFresh⟩

/-- The second page directory gets tables for an entry. -/
theorem getPte
    (pair : Pair memory root first firstValues second secondValues)
    {pte : Option Word}
    {target : PageTable.State}
    (called : PageTable.getPte memory.table va true = .ok (pte, target)) :
    ∃ more table,
      Pair { memory with table := target } root first firstValues more
          secondValues ∧
        more (path va 3) = some table ∧
        pte = some (entryAddress table (part va 3)) ∧
        ∀ page,
          Fresh (withRoot memory root) first firstValues page →
            Fresh memory second secondValues page →
              Fresh (withRoot { memory with table := target } root) first
                  firstValues page ∧
                Fresh { memory with table := target } more secondValues
                  page := by
  rcases pair.two.getPte called with
    ⟨more, table, two, here, isPte, kept⟩
  have within := within_getPte pair.two.shape called
  have supply : target.supply.Sublist memory.table.supply := by
    rcases reaches_getPte pair.two.shape called with ⟨_, _, reached, _⟩
    rcases reached.consumes.pages with ⟨taken, split, _⟩
    rw [split]
    exact List.sublist_append_right taken target.supply
  have one :
      Formed (withRoot { memory with table := target } root) first
        firstValues := by
    refine ⟨shape_of_entries pair.one.shape rfl supply ?_,
      pair.one.distinct, ?_, pair.one.apart⟩
    · intro route mine found index below
      have fresh := pair.tables route mine found
      apply within
      rintro page (free | ⟨other, there⟩) inside
      · have isPage := pair.two.shape.pages page free
        rw [inPage_entryAddress isPage fresh.isPage below] at inside
        exact fresh.unused (inside ▸ free)
      · have isPage := (pair.two.shape.used other page there).1
        rw [inPage_entryAddress isPage fresh.isPage below] at inside
        exact fresh.noTable other (inside ▸ there)
    · intro other valid member
      exact pair.one.unused other valid (supply.subset member)
  refine ⟨more, table, ⟨one, two, ?_, ?_⟩, here, isPte, ?_⟩
  · intro route mine found
    exact kept mine (pair.tables route mine found)
  · intro other valid
    exact kept _ (pair.frames other valid)
  · rintro page ⟨isPage, unused, noTable, unmapped⟩ fresh
    exact ⟨⟨isPage, fun member => unused (supply.subset member), noTable,
      unmapped⟩, kept page fresh⟩

/-- A page which is in no use is mapped by the second page directory. -/
theorem map
    (pair : Pair memory root first firstValues second secondValues)
    (oneFresh : Fresh (withRoot memory root) first firstValues page)
    (twoFresh : Fresh memory second secondValues page)
    (here : second (path va 3) = some table) :
    Pair
      (memory.store (entryAddress table (part va 3))
        (k2p page ||| pteUserData))
      root first firstValues second
      fun other =>
        if Agree 12 47 va other then
          k2p page ||| pteUserData
        else
          secondValues other := by
  have two := pair.two.map twoFresh here
  have points : frame (k2p page ||| pteUserData) = page :=
    follow_userData twoFresh.isPage
  have isTable := (pair.two.shape.used _ _ here).1
  have one :
      Formed
        (withRoot
          (memory.store (entryAddress table (part va 3))
            (k2p page ||| pteUserData))
          root)
        first firstValues := by
    refine ⟨shape_of_entries pair.one.shape rfl (List.Sublist.refl _) ?_,
      pair.one.distinct, pair.one.unused, pair.one.apart⟩
    intro route mine found index below
    have fresh := pair.tables route mine found
    apply Function.update_of_ne
    intro same
    have equal :=
      (entryAddress_inj fresh.isPage isTable below (part_lt va 3) same).1
    exact fresh.noTable _ (equal ▸ here)
  have fresh :
      ∀ other, Fresh memory second secondValues other → other ≠ page →
        Fresh
          (memory.store (entryAddress table (part va 3))
            (k2p page ||| pteUserData))
          second
          (fun another =>
            if Agree 12 47 va another then
              k2p page ||| pteUserData
            else
              secondValues another)
          other := by
    rintro other ⟨isPage, unused, noTable, unmapped⟩ different
    refine ⟨isPage, unused, noTable, ?_⟩
    intro another valid
    by_cases new : Agree 12 47 va another
    · rw [if_pos new, points]
      exact Ne.symm different
    · rw [if_neg new] at valid ⊢
      exact unmapped another valid
  refine ⟨one, two, ?_, ?_⟩
  · intro route mine found
    apply fresh mine (pair.tables route mine found)
    rintro rfl
    exact oneFresh.noTable route found
  · intro other valid
    exact fresh _ (pair.frames other valid) (oneFresh.unmapped other valid)

end Pair

/-! ## What the processes see -/

section Seen

variable
    {memory after : Memory}
    {root : Option Word}
    {first second : List Word → Option Word}
    {firstValues secondValues : Word → Word}
    {page : Word}

/-- A process sees the same when its entries and the bytes are the same. -/
theorem view_of_values
    {tables more : List Word → Option Word}
    {values : Word → Word}
    (before : Formed memory tables values)
    (later : Formed after more values)
    (bytes : after.bytes = memory.bytes) :
    view after = view memory := by
  funext address
  unfold view
  rw [before.entryOf, later.entryOf, bytes]

/-- Bytes of a page which is not mapped can change. -/
theorem view_fill_of_ne
    (isPage : IsPage page)
    {start length : Nat}
    (inside : start + length ≤ pageSize)
    (data : Nat → UInt8)
    (apart :
      ∀ address, Mapped memory address →
        frame (entryOf memory (BitVec.ofNat 64 address)) ≠ page) :
    view (memory.fill (page + BitVec.ofNat 64 start) length data) =
      view memory := by
  funext address
  by_cases mapped : Mapped memory address
  · have kept :
        Mapped (memory.fill (page + BitVec.ofNat 64 start) length data)
          address :=
      (mapped_of_table (table_fill ..) address).mpr mapped
    rw [view_of_mapped kept, view_of_mapped mapped,
      entryOf_of_table (table_fill ..)]
    have isFrame :
        IsPage (frame (entryOf memory (BitVec.ofNat 64 address))) :=
      isPage_pteAddress _
    unfold Memory.fill
    dsimp only
    rw [if_neg]
    rw [offset_lt_iff isPage isFrame inside
      (Nat.mod_lt address (by decide))]
    exact fun both => apart address mapped both.1
  · have unmapped :
        ¬ Mapped (memory.fill (page + BitVec.ofNat 64 start) length data)
          address :=
      fun there =>
        mapped ((mapped_of_table (table_fill ..) address).mp there)
    unfold Mapped at mapped unmapped
    rw [not_not] at mapped unmapped
    rw [mapped, unmapped]

/-- Other pages of the memory are the same for both. -/
theorem withRoot_fill
    (memory : Memory)
    (root : Option Word)
    (target : Word)
    (length : Nat)
    (data : Nat → UInt8) :
    withRoot (memory.fill target length data) root =
      (withRoot memory root).fill target length data :=
  rfl

@[simp]
theorem withRoot_withRoot (memory : Memory) (root : Option Word) :
    withRoot (withRoot memory root) memory.table.pt = memory :=
  rfl

/-- A page which is not mapped can be filled. -/
theorem view_fillPage
    {tables : List Word → Option Word}
    {values : Word → Word}
    (formed : Formed memory tables values)
    (fresh : Fresh memory tables values page)
    (data : Nat → UInt8) :
    view (memory.fill page pageSize data) = view memory := by
  have start : page + BitVec.ofNat 64 0 = page := BitVec.add_zero page
  have same :=
    view_fill_of_ne fresh.isPage (Nat.zero_add pageSize).le data
      fun address mapped => by
        have valid := (mapped_iff.mp mapped).2
        rw [formed.entryOf] at valid ⊢
        exact fresh.unmapped _ valid
  rw [start] at same
  exact same

/-- What a process sees when a page has been filled and then mapped. -/
theorem view_fill_map
    {tables more : List Word → Option Word}
    {values : Word → Word}
    {va : Word}
    {data : Nat → UInt8}
    (before : Formed memory tables values)
    (fresh : Fresh memory tables values page)
    (later :
      Formed after more fun other =>
        if Agree 12 47 va other then
          k2p page ||| pteUserData
        else
          values other)
    (bytes : after.bytes = (memory.fill page pageSize data).bytes)
    (below : va.toNat < userTop.toNat)
    (address : Nat) :
    view after address =
      if address / pageSize = va.toNat / pageSize then
        some (data (address % pageSize))
      else
        view memory address := by
  have positive : 0 < pageSize := by decide
  have top : userTop.toNat = 2 ^ 48 := rfl
  have filled : Formed (memory.fill page pageSize data) tables values :=
    before.bytes (table_fill ..)
  have entry := later.entryOf (BitVec.ofNat 64 address)
  have start : (BitVec.ofNat 64 va.toNat : Word) = va := by
    rw [BitVec.ofNat_toNat, BitVec.setWidth_eq]
  by_cases inside : address < userTop.toNat
  · have order := agree_ofNat_iff below inside
    rw [start] at order
    by_cases same : address / pageSize = va.toNat / pageSize
    · have agree := order.mpr same.symm
      rw [if_pos agree] at entry
      have mapped : Mapped after address := by
        rw [mapped_iff, entry]
        exact ⟨inside, valid_pteUserData _⟩
      have offset : address % pageSize < pageSize :=
        Nat.mod_lt address positive
      have back := (inPage_offset page offset).2
      have points : frame (k2p page ||| pteUserData) = page :=
        follow_userData fresh.isPage
      rw [if_pos same, view_of_mapped mapped, entry, points, bytes]
      unfold Memory.fill
      dsimp only
      rw [back, if_pos offset]
    · rw [if_neg (fun agree => same (order.mp agree).symm)] at entry
      rw [if_neg same, ← view_fillPage before fresh data]
      unfold view
      rw [entry, filled.entryOf, bytes]
  · rw [if_neg]
    · unfold view
      rw [if_neg (fun both => inside both.1),
        if_neg (fun both => inside both.1)]
    · unfold pageSize
      omega

/-- The second process has got a page with these bytes. -/
structure Given
    (memory : Memory)
    (root : Option Word)
    (va page : Word)
    (data : Nat → UInt8)
    (after : Memory) : Prop where
  other : view (withRoot after root) = view (withRoot memory root)
  own :
    ∀ address,
      view after address =
        if address / pageSize = va.toNat / pageSize then
          some (data (address % pageSize))
        else
          view memory address
  entries :
    ∀ other,
      entryOf after other =
        if Agree 12 47 va other then
          k2p page ||| pteUserData
        else
          entryOf memory other
  spent : memory.table.supply.length ≤ after.table.supply.length + 4

/-- A free page is filled, and mapped by the second process. -/
theorem Pair.give
    (pair : Pair memory root first firstValues second secondValues)
    {rest : List Word}
    (offered : memory.table.supply = page :: rest)
    (enough : 3 ≤ rest.length)
    {va : Word}
    (below : va.toNat < userTop.toNat)
    (data : Nat → UInt8) :
    ∃ pte target,
      PageTable.getPte { memory.table with supply := rest } va true =
          .ok (some pte, target) ∧
        (∃ more values,
          Pair
            (Memory.store
              { memory.fill page pageSize data with table := target } pte
              (k2p page ||| pteUserData))
            root first firstValues more values) ∧
        Given memory root va page data
          (Memory.store
            { memory.fill page pageSize data with table := target } pte
            (k2p page ||| pteUserData)) := by
  rcases pair.take offered with ⟨taken, oneFresh, twoFresh⟩
  generalize reduced :
    ({ memory with table := { memory.table with supply := rest } } :
      Memory) = middle at taken oneFresh twoFresh
  have table : middle.table = { memory.table with supply := rest } := by
    rw [← reduced]
  have sameBytes : middle.bytes = memory.bytes := by
    rw [← reduced]
  have rooted : middle.table.pt ≠ none := by
    rw [taken.two.shape.root]
    exact taken.two.shape.rooted
  have supply : middle.table.supply = rest := by
    rw [table]
  rcases getPte_returns va true rooted
    (fun _ => by rw [supply]; exact enough) with
    ⟨pte, target, called, left⟩
  rcases taken.getPte called with ⟨more, last, found, here, rfl, keeps⟩
  have fresh := keeps page oneFresh twoFresh
  have mapped := found.map fresh.1 fresh.2 here
  rw [table] at called
  rw [supply] at left
  have finish :
      Pair
        (Memory.store
          { memory.fill page pageSize data with table := target }
          (entryAddress last (part va 3)) (k2p page ||| pteUserData))
        root first firstValues more _ :=
    mapped.bytes rfl
  have filledBytes :
      (memory.fill page pageSize data).bytes =
        (middle.fill page pageSize data).bytes := by
    rw [← reduced]
    rfl
  refine ⟨_, target, called, ⟨more, _, finish⟩, ?_, ?_, ?_, ?_⟩
  · have filled :
        Formed ((withRoot middle root).fill page pageSize data) first
          firstValues :=
      taken.one.bytes (table_fill ..)
    calc
      view (withRoot _ root) =
          view ((withRoot middle root).fill page pageSize data) :=
        view_of_values filled finish.one filledBytes
      _ = view (withRoot middle root) :=
        view_fillPage taken.one oneFresh data
      _ = view (withRoot memory root) :=
        view_of_values pair.one taken.one sameBytes
  · intro address
    rw [← view_of_values pair.two taken.two sameBytes]
    exact view_fill_map taken.two twoFresh finish.two filledBytes below
      address
  · intro other
    rw [finish.two.entryOf, pair.two.entryOf]
  · have length := congrArg List.length offered
    rw [List.length_cons] at length
    have final :
        (Memory.store
          { memory.fill page pageSize data with table := target }
          (entryAddress last (part va 3))
          (k2p page ||| pteUserData)).table.supply = target.supply :=
      rfl
    rw [final]
    omega

/-- A process of a pair. -/
inductive Side where
  | one
  | two
  deriving DecidableEq

/-- What a process of a pair sees. -/
def sight (memory : Memory) (root : Option Word) : Side → View UInt8
  | .one => view (withRoot memory root)
  | .two => view memory

/-- A process writes a byte; `none` where it has no page. -/
def write (memory : Memory) (root : Option Word) :
    Side → Nat → UInt8 → Option Memory
  | .one, address, byte =>
      (storeByte (withRoot memory root) address byte).map fun after =>
        withRoot after memory.table.pt
  | .two, address, byte => storeByte memory address byte

/-- The byte has been written by one process, and the other sees nothing. -/
structure Isolated
    (memory : Memory)
    (root : Option Word)
    (side : Side)
    (address : Nat)
    (byte : UInt8)
    (after : Memory) : Prop where
  own :
    sight after root side =
      Function.update (sight memory root side) address (some byte)
  other :
    ∀ another, another ≠ side →
      sight after root another = sight memory root another

/-- A process sees the byte which it has written, and nothing else new. -/
theorem view_storeByte
    {tables : List Word → Option Word}
    {values : Word → Word}
    (formed : Formed memory tables values)
    {address : Nat}
    (mapped : Mapped memory address)
    (byte : UInt8) :
    view
        (memory.fill
          (frame (entryOf memory (BitVec.ofNat 64 address)) +
            BitVec.ofNat 64 (address % pageSize)) 1 fun _ => byte) =
      Function.update (view memory) address (some byte) := by
  have room : address % pageSize + 1 ≤ pageSize :=
    Nat.succ_le_of_lt (Nat.mod_lt address (by decide))
  have writes := formed.fill mapped room fun _ => byte
  funext other
  by_cases same : other = address
  · rw [same, Function.update_self]
    exact writes.stores.written 0 Nat.one_pos
  · rw [Function.update_of_ne same]
    by_cases there : Mapped memory other
    · apply writes.stores.kept other _ there
      unfold InRange
      omega
    · have same := mapped_of_table
        (table_fill memory
          (frame (entryOf memory (BitVec.ofNat 64 address)) +
            BitVec.ofNat 64 (address % pageSize)) 1 fun _ => byte) other
      have unmapped := mt same.mp there
      unfold Mapped at there unmapped
      rw [not_not] at there unmapped
      rw [there, unmapped]

/-- A process of a pair can write where it has a page. -/
theorem Pair.write
    (pair : Pair memory root first firstValues second secondValues)
    {side : Side}
    {address : Nat}
    (there : sight memory root side address ≠ none)
    (byte : UInt8) :
    ∃ after,
      write memory root side address byte = some after ∧
        Pair after root first firstValues second secondValues ∧
        Isolated memory root side address byte after := by
  have room : address % pageSize + 1 ≤ pageSize :=
    Nat.succ_le_of_lt (Nat.mod_lt address (by decide))
  cases side with
  | one =>
      have mapped : Mapped (withRoot memory root) address := there
      have valid := (mapped_iff.mp mapped).2
      rw [pair.one.entryOf] at valid
      have apart := pair.frames _ valid
      rw [← pair.one.entryOf] at apart
      refine
        ⟨memory.fill
            (frame
                (entryOf (withRoot memory root) (BitVec.ofNat 64 address)) +
              BitVec.ofNat 64 (address % pageSize)) 1 fun _ => byte,
          ?_, ?_, ?_, ?_⟩
      · unfold AddressSpaces.write storeByte
        dsimp only
        rw [if_pos (Option.isSome_iff_ne_none.mpr mapped), Option.map_some,
          withRoot_fill, withRoot_withRoot]
      · exact pair.bytes (table_fill ..)
      · unfold sight
        rw [withRoot_fill]
        exact view_storeByte pair.one mapped byte
      · intro another different
        cases another with
        | one => exact absurd rfl different
        | two =>
            unfold sight
            apply view_fill_of_ne apart.isPage room
            intro other otherMapped
            have otherValid := (mapped_iff.mp otherMapped).2
            rw [pair.two.entryOf] at otherValid ⊢
            exact apart.unmapped _ otherValid
  | two =>
      have mapped : Mapped memory address := there
      have valid := (mapped_iff.mp mapped).2
      rw [pair.two.entryOf] at valid
      have isPage :
          IsPage (frame (entryOf memory (BitVec.ofNat 64 address))) :=
        isPage_pteAddress _
      refine
        ⟨memory.fill
            (frame (entryOf memory (BitVec.ofNat 64 address)) +
              BitVec.ofNat 64 (address % pageSize)) 1 fun _ => byte,
          ?_, ?_, ?_, ?_⟩
      · unfold AddressSpaces.write storeByte
        dsimp only
        rw [if_pos (Option.isSome_iff_ne_none.mpr mapped)]
      · exact pair.bytes (table_fill ..)
      · unfold sight
        exact view_storeByte pair.two mapped byte
      · intro another different
        cases another with
        | two => exact absurd rfl different
        | one =>
            unfold sight
            rw [withRoot_fill]
            apply view_fill_of_ne isPage room
            intro other otherMapped
            have otherValid := (mapped_iff.mp otherMapped).2
            rw [pair.one.entryOf] at otherValid ⊢
            rw [pair.two.entryOf]
            exact Ne.symm
              ((pair.frames _ otherValid).unmapped _ valid)

/-- Writes by either process, one after the other. -/
def writeAll (root : Option Word) :
    List (Side × Nat × UInt8) → Memory → Option Memory
  | [], memory => some memory
  | (side, address, byte) :: writes, memory => do
      let memory ← AddressSpaces.write memory root side address byte
      writeAll root writes memory

/-- What one process has written, over what it saw. -/
def written (side : Side) (writes : List (Side × Nat × UInt8))
    (seen : View UInt8) : View UInt8 :=
  writes.foldl
    (fun seen (other, address, byte) =>
      if other = side then
        Function.update seen address (some byte)
      else
        seen)
    seen

/-- Each process of a pair sees its own writes only, in every order. -/
theorem Pair.writeAll
    (pair : Pair memory root first firstValues second secondValues)
    (writes : List (Side × Nat × UInt8))
    (there :
      ∀ side address byte, (side, address, byte) ∈ writes →
        sight memory root side address ≠ none) :
    ∃ after,
      AddressSpaces.writeAll root writes memory = some after ∧
        Pair after root first firstValues second secondValues ∧
        ∀ side,
          sight after root side =
            written side writes (sight memory root side) := by
  induction writes generalizing memory with
  | nil => exact ⟨memory, rfl, pair, fun _ => rfl⟩
  | cons head writes ih =>
      rcases head with ⟨side, address, byte⟩
      rcases pair.write (there _ _ _ List.mem_cons_self) byte with
        ⟨middle, ran, pair, isolated⟩
      have seen :
          ∀ other,
            sight middle root other =
              if side = other then
                Function.update (sight memory root other) address (some byte)
              else
                sight memory root other := by
        intro other
        by_cases same : side = other
        · rw [if_pos same, ← same, isolated.own]
        · rw [if_neg same, isolated.other other (Ne.symm same)]
      rcases ih pair (by
          intro other place value member
          have before :=
            there other place value (List.mem_cons_of_mem _ member)
          rw [seen]
          split_ifs with same
          · by_cases here : place = address
            · rw [here, Function.update_self]
              exact Option.some_ne_none byte
            · rw [Function.update_of_ne here]
              exact before
          · exact before) with
        ⟨after, rest, pair, all⟩
      refine ⟨after, ?_, pair, ?_⟩
      · unfold AddressSpaces.writeAll
        rw [ran]
        exact rest
      · intro other
        rw [all other, seen other]
        rfl

end Seen

end FudanOS.Kernel.AddressSpaces
