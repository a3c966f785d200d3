import FudanOS.Kernel.Sbrk

/-!
# Where page faults are resolved

`pgfault_handler` takes the first section which begins at or below the
address, and else the last one.  The end of the section is not looked at, and
no process is killed, so a fault outside the sections is resolved as well.
-/

namespace FudanOS.Kernel.PageFaults

open FudanOS.Aarch64.Mmu
open FudanOS.Library.BitFields
open FudanOS.Library.Runs
open FudanOS.Kernel.PageTable
open FudanOS.Kernel.Paging

/-! ## What the callers may expect -/

/-- The address lies in the section. -/
def Contains (sec : Section) (addr : Word) : Prop :=
  sec.begin ≤ addr ∧ addr < sec.end_

/-- The address lies in some section. -/
def Inside (space : Space) (addr : Word) : Prop :=
  ∃ sec ∈ space.sections, Contains sec addr

/-- The bit of `iss` which is set when the access was a write. -/
def issWrite : Word := 1 <<< 6

/-- A write fault on a page which is mapped and may be read only. -/
def OnReadOnly (space : Space) (addr iss : Word) : Prop :=
  iss &&& issWrite ≠ 0 ∧
    entryAt space addr &&& pteValid ≠ 0 ∧
    entryAt space addr &&& pteRo ≠ 0

/-- The entry of an address, and `none` if there is no table for it. -/
def foundEntry (space : Space) (va : Word) : Option Word :=
  match PageTable.getPte space.table va false with
  | .ok (some pte, table) => some (table.memory pte)
  | _ => none

/-- The page table is the same, and no page was taken. -/
structure Untouched (space target : Space) : Prop where
  entries : ∀ va, foundEntry target va = foundEntry space va
  pages : target.kallocPageCnt = space.kallocPageCnt

/-- Faults are resolved inside the sections, and kill the process outside. -/
structure Resolves
    (device : Device)
    (space : Space)
    (addr iss : Word) : Prop where
  inside :
    Inside space addr →
      ∀ sec, (pgfaultHandler device space addr iss).tested = some sec →
        Contains sec addr
  outside :
    ¬ Inside space addr → ¬ OnReadOnly space addr iss →
      ∃ target,
        (pgfaultHandler device space addr iss).result =
            .ok (iss, target) ∧
          Untouched space target ∧ target.killed = true

/-! ## The section -/

/-- The first section which begins at or below the address, or the last. -/
def chosen (space : Space) (addr : Word) : Option Section :=
  (space.sections.find? fun sec => decide (sec.begin ≤ addr)).or
    space.sections.getLast?

/-- There are pages for the tables which `get_pte` has to make. -/
def TablesFit (space : Space) (addr : Word) : Prop :=
  ∃ pointer table,
    PageTable.getPte space.table addr true = .ok (pointer, table)

/-- The entry is such that the flags of the section matter. -/
def NeedsFlags (entry : Word) : Prop :=
  entry = 0 ∨ entry &&& pteRo = 0 ∧ entry &&& pteValid = 0

/-- The flags of a section are tested. -/
def TestsFlags (space : Space) (addr : Word) : Prop :=
  TablesFit space addr ∧ NeedsFlags (entryAt space addr)

/-- The section has no page which could be loaded, and its loop ends. -/
structure LoadsNothing (space : Space) (sec : Section) : Prop where
  unlocked : sec.sleepLock ≠ 0
  ends : sec.end_.toNat ≤ 2 ^ 64 - 4096 + sec.begin.toNat % 4096
  empty :
    ∀ count : Nat, sec.begin.toNat + count * 4096 < sec.end_.toNat →
      entryAt space (sec.begin + BitVec.ofNat 64 (count * 4096)) = 0

/-- The handler finds an entry, and leaves it as it is. -/
def Idle (space : Space) (addr : Word) : Prop :=
  ∃ sec entry,
    chosen space addr = some sec ∧
      foundEntry space addr = some entry ∧
      (entry = 0 ∧ sec.flags &&& stSwap ≠ 0 ∧ LoadsNothing space sec ∨
        entry ≠ 0 ∧ entry &&& pteRo = 0 ∧
          (entry &&& pteValid ≠ 0 ∨ sec.flags &&& stSwap = 0 ∨
            LoadsNothing space sec))

/-! ## The tables -/

section Tables

variable
    {space target : Space}
    {tables : List Word → Option Word}
    {values : Word → Word}
    {va addr page pointer value : Word}
    {content : Nat → Word}
    {iss : Word}

theorem entryAt_eq (space : Space) (va : Word) :
    entryAt space va = (foundEntry space va).getD 0 := by
  unfold entryAt foundEntry
  cases PageTable.getPte space.table va false with
  | error _ => rfl
  | ok found =>
      rcases found with ⟨_ | pte, table⟩
      · rfl
      · rfl

/-- The entry is there when its table is. -/
theorem foundEntry_eq
    (holds : Holds space.table tables values)
    (va : Word) :
    foundEntry space va = (tables (path va 3)).map fun _ => values va := by
  unfold foundEntry
  cases holds.finds va with
  | entry table here called value =>
      rw [called, here]
      exact congrArg some value
  | nothing called _ absent =>
      rw [called, absent]
      rfl

theorem holds_of_shape
    {state : PageTable.State}
    (shape : Shape state tables values) :
    Holds state tables values :=
  ⟨state.supply, shape⟩

/-- A page which is not in use is overwritten. -/
theorem holds_fill
    (shape : Shape space.table tables values)
    (free : page ∈ space.table.supply)
    (same : target.table.memory = space.table.memory)
    (root : target.table.pt = space.table.pt) :
    Holds (target.fill page content).table tables values := by
  have isPage := shape.pages page free
  have outside :
      ∀ {route table : _} (index : Word), index.toNat < 512 →
        tables route = some table →
          ¬ InPage page (entryAddress table index) := by
    intro route table index bound here within
    rcases shape.used route table here with ⟨isTable, used⟩
    apply used
    rw [← (inPage_entryAddress isPage isTable bound).mp within]
    exact free
  refine ⟨space.table.supply, ?_⟩
  refine ⟨root.trans shape.root, shape.rooted, shape.pages, shape.nodup,
    shape.used, shape.injective, shape.closed, ?_, ?_, shape.unwritten⟩
  · intro va level table inside here
    unfold Space.fill
    dsimp only
    rw [if_neg (outside _ (part_lt va level) here), same]
    exact shape.inner va level table inside here
  · intro va table here
    unfold Space.fill
    dsimp only
    rw [if_neg (outside _ (part_lt va 3) here), same]
    exact shape.leaf va table here

/-- The entry which is written is what is found from then on. -/
theorem foundEntry_store
    {table : Word}
    (holds : Holds space.table tables values)
    (here : tables (path va 3) = some table)
    (value : Word) :
    foundEntry (space.store (entryAddress table (part va 3)) value) va =
      some value := by
  rw [foundEntry_eq (holds.write here value), here]
  exact congrArg some (if_pos (agree_iff_pageOf.mpr rfl))

end Tables

/-! ## Tables which are made -/

section Grown

variable
    {state target : PageTable.State}
    {va pt index : Word}
    {found : Option Word}

/-- What a call has found without making a table, it finds anyway. -/
theorem nextTable_there
    {table : Word}
    (called :
      nextTable state pt index false = .ok (some table, target)) :
    nextTable state pt index true = .ok (some table, target) := by
  unfold nextTable at called ⊢
  by_cases invalid :
      state.memory (entryAddress pt index) &&& pteValid = 0
  · rw [if_pos invalid] at called
    cases called
  · rw [if_neg invalid] at called ⊢
    exact called

theorem nextTable_takes
    {alloc : Bool}
    (called : nextTable state pt index alloc = .ok (found, target)) :
    target = state ∨ target.supply.length < state.supply.length := by
  unfold nextTable at called
  split_ifs at called with invalid isTrue
  · rcases of_bind called with ⟨⟨page, middle⟩, made, rest⟩
    cases rest
    rcases newTable_eq made with ⟨rest, offered, rfl⟩
    right
    rw [offered]
    exact Nat.lt_succ_self _
  · cases called
    exact Or.inl rfl
  · cases called
    exact Or.inl rfl

/-- An entry which is there is found with `alloc` too. -/
theorem getPte_there
    {pointer : Word}
    (called :
      PageTable.getPte state va false = .ok (some pointer, target)) :
    PageTable.getPte state va true = .ok (some pointer, target) := by
  unfold PageTable.getPte at called ⊢
  rcases of_bind called with ⟨⟨found, middle⟩, first, called⟩
  cases found with
  | none => cases called
  | some pt0 =>
      have again : rootTable state true = .ok (some pt0, middle) := by
        unfold rootTable at first ⊢
        cases pt : state.pt with
        | none =>
            rw [pt] at first
            cases first
        | some table =>
            rw [pt] at first
            exact first
      rcases of_bind called with ⟨⟨found, later⟩, second, called⟩
      cases found with
      | none => cases called
      | some pt1 =>
          rcases of_bind called with ⟨⟨found, final⟩, third, called⟩
          cases found with
          | none => cases called
          | some pt2 =>
              rcases of_bind called with ⟨⟨found, last⟩, fourth, called⟩
              cases found with
              | none => cases called
              | some pt3 =>
                  simp only [again, nextTable_there second,
                    nextTable_there third, nextTable_there fourth, bind,
                    Except.bind]
                  exact called

/-- Tables are made of free pages. -/
theorem getPte_takes
    {alloc : Bool}
    (called : PageTable.getPte state va alloc = .ok (found, target)) :
    target = state ∨ target.supply.length < state.supply.length := by
  have join :
      ∀ {first middle last : PageTable.State},
        (middle = first ∨ middle.supply.length < first.supply.length) →
          (last = middle ∨ last.supply.length < middle.supply.length) →
            last = first ∨ last.supply.length < first.supply.length := by
    rintro first middle last (rfl | less) (rfl | fewer)
    · exact Or.inl rfl
    · exact Or.inr fewer
    · exact Or.inr less
    · exact Or.inr (fewer.trans less)
  unfold PageTable.getPte at called
  rcases of_bind called with ⟨⟨next, middle⟩, first, called⟩
  have taken :
      middle = state ∨ middle.supply.length < state.supply.length := by
    unfold rootTable at first
    split at first
    · cases first
      exact Or.inl rfl
    · split_ifs at first with isTrue
      · rcases of_bind first with ⟨⟨page, made⟩, new, rest⟩
        cases rest
        rcases newTable_eq new with ⟨rest, offered, rfl⟩
        right
        dsimp only
        rw [offered]
        exact Nat.lt_succ_self _
      · cases first
        exact Or.inl rfl
  cases next with
  | none =>
      cases called
      exact taken
  | some pt0 =>
      rcases of_bind called with ⟨⟨next, middle⟩, second, called⟩
      have taken := join taken (nextTable_takes second)
      cases next with
      | none =>
          cases called
          exact taken
      | some pt1 =>
          rcases of_bind called with ⟨⟨next, middle⟩, third, called⟩
          have taken := join taken (nextTable_takes third)
          cases next with
          | none =>
              cases called
              exact taken
          | some pt2 =>
              rcases of_bind called with ⟨⟨next, middle⟩, fourth, called⟩
              have taken := join taken (nextTable_takes fourth)
              cases next with
              | none =>
                  cases called
                  exact taken
              | some pt3 =>
                  cases called
                  exact taken

end Grown

/-! ## `get_pte` in the handler -/

/-- What the handler has when it looks at the entry. -/
structure Found
    (space : Space)
    (tables : List Word → Option Word)
    (values : Word → Word)
    (addr : Word)
    (table : Word)
    (after : List Word → Option Word)
    (grown : Space) : Prop where
  called :
    getPte space addr true =
      .ok (some (entryAddress table (part addr 3)), grown)
  shape : Shape grown.table after values
  here : after (path addr 3) = some table
  sections : grown.sections = space.sections
  killed : grown.killed = space.killed
  pagenum : grown.pagenum = space.pagenum
  there : tables (path addr 3) ≠ none → grown = space
  made :
    tables (path addr 3) = none →
      space.kallocPageCnt < grown.kallocPageCnt

section Search

variable
    {space : Space}
    {tables : List Word → Option Word}
    {values : Word → Word}
    {addr : Word}

theorem foldl_count (pages : List Word) (space : Space) :
    (pages.foldl Space.count space).sections = space.sections ∧
      (pages.foldl Space.count space).killed = space.killed ∧
      (pages.foldl Space.count space).pagenum = space.pagenum ∧
      (pages.foldl Space.count space).kallocPageCnt =
        space.kallocPageCnt + pages.length := by
  induction pages generalizing space with
  | nil => exact ⟨rfl, rfl, rfl, (Int.add_zero _).symm⟩
  | cons page pages ih =>
      rcases ih (space.count page) with ⟨sections, killed, pagenum, count⟩
      refine ⟨sections, killed, pagenum, ?_⟩
      rw [List.foldl_cons, count, List.length_cons]
      change space.kallocPageCnt + 1 + _ = _
      omega

theorem found_of_tablesFit
    (shape : Shape space.table tables values)
    (fit : TablesFit space addr) :
    ∃ table after grown, Found space tables values addr table after
      grown := by
  rcases fit with ⟨pointer, made, called⟩
  rcases reaches_getPte shape called with ⟨found, after, reached, leads⟩
  cases found with
  | none => exact absurd rfl (reached.made rfl)
  | some table =>
      have pages := foldl_count
        (space.table.supply.take
          (space.table.supply.length - made.supply.length)) space
      refine ⟨table, after,
        { (space.table.supply.take
            (space.table.supply.length - made.supply.length)).foldl
              Space.count space with table := made },
        ?_, reached.shape, reached.leads.symm, pages.1, pages.2.1,
        pages.2.2.1, ?_, ?_⟩
      · unfold Paging.getPte
        rw [called, leads]
        rfl
      · intro there
        rcases Option.ne_none_iff_exists'.mp there with ⟨before, here⟩
        have same : made = space.table := by
          cases (holds_of_shape shape).finds addr with
          | nothing _ _ absent => exact absurd absent there
          | entry _ _ early _ =>
              have again := getPte_there early
              rw [called] at again
              cases again
              rfl
        rw [same, Nat.sub_self, List.take_zero]
        rfl
      · intro absent
        rcases getPte_takes called with same | fewer
        · have first := (holds_of_shape shape).finds addr
          rw [same] at reached
          have second := (holds_of_shape reached.shape).finds addr
          cases first with
          | entry _ here _ _ =>
              rw [absent] at here
              cases here
          | nothing early _ _ =>
              cases second with
              | nothing _ _ missing =>
                  rw [← reached.leads] at missing
                  cases missing
              | entry _ _ late _ =>
                  rw [early] at late
                  cases late
        · rw [pages.2.2.2, List.length_take]
          omega

theorem getPte_of_not_fit
    (fit : ¬ TablesFit space addr) :
    getPte space addr true = .error .null := by
  unfold Paging.getPte
  cases called : PageTable.getPte space.table addr true with
  | error _ => rfl
  | ok result => exact absurd ⟨result.1, result.2, called⟩ fit

end Search

/-! ## Loading -/

section Loading

variable
    {device : Device}
    {space target : Space}
    {sec : Section}
    {i end_ : Word}

theorem of_bind_halt
    {Value Result : Type}
    {computation : Except Halt Value}
    {continuation : Value → Except Halt Result}
    {result : Result}
    (called : (computation >>= continuation) = .ok result) :
    ∃ value, computation = .ok value ∧ continuation value = .ok result := by
  cases computation with
  | error _ => cases called
  | ok value => exact ⟨value, rfl, called⟩

/-- A page is taken, or there is none. -/
theorem userPageAlloc_eq
    {page : Option Word}
    (called : userPageAlloc space = .ok (page, target)) :
    (page = none ∧ target = space) ∨
      ∃ taken rest,
        page = some taken ∧ space.table.supply = taken :: rest ∧
          target =
            ({ space with table := { space.table with supply := rest } }
              : Space).count taken := by
  unfold userPageAlloc at called
  by_cases few : leftPageCnt space ≤ 1024
  · rw [if_pos few] at called
    cases called
    exact Or.inl ⟨rfl, rfl⟩
  · rw [if_neg few] at called
    rcases of_bind_halt called with ⟨⟨taken, middle⟩, made, rest⟩
    cases rest
    right
    unfold kallocPage at made
    cases supply : space.table.supply with
    | nil =>
        rw [supply] at made
        cases made
    | cons first others =>
        rw [supply] at made
        cases made
        exact ⟨_, _, rfl, rfl, rfl⟩

theorem getPte_without_alloc
    (space : Space)
    (i : Word) :
    ∃ pte,
      getPte space i false = .ok (pte, space) ∧
        entryAt space i = (pte.map space.table.memory).getD 0 := by
  rcases getPte_false space.table i with ⟨found, always⟩
  have called := always space.table.supply
  refine ⟨found, Sbrk.getPte_without_alloc called, ?_⟩
  unfold entryAt
  have same :
      ({ space.table with supply := space.table.supply } :
        PageTable.State) = space.table := rfl
  rw [same] at called
  rw [called]
  cases found with
  | none => rfl
  | some _ => rfl

/-- An iteration changes nothing, or takes a page. -/
theorem loadEntry_takes
    (loaded : loadEntry device space i = .ok target) :
    (target = space ∧ entryAt space i = 0) ∨
      target.kallocPageCnt = space.kallocPageCnt + 1 := by
  rcases getPte_without_alloc space i with ⟨pte, called, value⟩
  unfold loadEntry at loaded
  rw [called] at loaded
  cases pte with
  | none =>
      cases loaded
      exact Or.inl ⟨rfl, value⟩
  | some pte =>
      change (if space.table.memory pte = 0 then _ else _) = _ at loaded
      by_cases empty : space.table.memory pte = 0
      · rw [if_pos empty] at loaded
        cases loaded
        exact Or.inl ⟨rfl, value.trans empty⟩
      · rw [if_neg empty] at loaded
        rcases of_bind_halt loaded with ⟨⟨page, middle⟩, made, loaded⟩
        rcases userPageAlloc_eq made with
          ⟨rfl, rfl⟩ | ⟨taken, rest, rfl, -, rfl⟩
        · cases loaded
        · cases loaded
          exact Or.inr rfl

theorem loadEntry_nothing
    (empty : entryAt space i = 0) :
    loadEntry device space i = .ok space := by
  rcases getPte_without_alloc space i with ⟨pte, called, value⟩
  unfold loadEntry
  rw [called]
  cases pte with
  | none => rfl
  | some pte =>
      have zero : space.table.memory pte = 0 := value.symm.trans empty
      change (if space.table.memory pte = 0 then _ else _) = _
      rw [if_pos zero]
      rfl

theorem add_page (va : Word) (count : Nat) :
    va + BitVec.ofNat 64 ((count + 1) * 4096) =
      va + 4096 + BitVec.ofNat 64 (count * 4096) :=
  (Sbrk.add_pages va count).symm

/-- The loop takes a page, or it has found nothing in its range. -/
theorem loadFrom_takes
    {fuel : Nat}
    (loaded : loadFrom device end_ fuel i space = .ok target) :
    space.kallocPageCnt < target.kallocPageCnt ∨
      target = space ∧
        ∃ last,
          (∀ count < last,
            entryAt space (i + BitVec.ofNat 64 (count * 4096)) = 0) ∧
            ¬ i + BitVec.ofNat 64 (last * 4096) < end_ := by
  have start : i + BitVec.ofNat 64 (0 * 4096) = i := by
    rw [Nat.zero_mul]
    exact BitVec.add_zero i
  induction fuel generalizing i space with
  | zero => cases loaded
  | succ fuel ih =>
      unfold loadFrom at loaded
      by_cases inside : i < end_
      · rw [if_pos inside] at loaded
        rcases of_bind_halt loaded with ⟨middle, first, loaded⟩
        have again : i + 4096 + BitVec.ofNat 64 (0 * 4096) = i + 4096 := by
          rw [Nat.zero_mul]
          exact BitVec.add_zero (i + 4096)
        rcases ih loaded again with takes | ⟨rfl, last, empty, past⟩
        · rcases loadEntry_takes first with ⟨rfl, -⟩ | more
          · exact Or.inl takes
          · exact Or.inl (by omega)
        · rcases loadEntry_takes first with ⟨rfl, here⟩ | more
          · refine Or.inr ⟨rfl, last + 1, ?_, ?_⟩
            · intro count below
              cases count with
              | zero =>
                  rw [start]
                  exact here
              | succ count =>
                  rw [add_page]
                  exact empty count (Nat.lt_of_succ_lt_succ below)
            · rw [add_page]
              exact past
          · exact Or.inl (by omega)
      · rw [if_neg inside] at loaded
        cases loaded
        refine Or.inr ⟨rfl, 0, ?_, ?_⟩
        · intro count below
          exact absurd below (Nat.not_lt_zero count)
        · rw [start]
          exact inside

/-- Where nothing is found, the loop ends without a change. -/
theorem loadFrom_nothing
    {fuel : Nat}
    (ends : end_.toNat ≤ 2 ^ 64 - 4096 + i.toNat % 4096)
    (enough : end_.toNat < i.toNat + fuel * 4096)
    (empty :
      ∀ count : Nat, i.toNat + count * 4096 < end_.toNat →
        entryAt space (i + BitVec.ofNat 64 (count * 4096)) = 0) :
    loadFrom device end_ (fuel + 1) i space = .ok space := by
  induction fuel generalizing i with
  | zero =>
      unfold loadFrom
      rw [if_neg]
      rw [BitVec.lt_def]
      omega
  | succ fuel ih =>
      rw [loadFrom]
      by_cases inside : i < end_
      · have below : i.toNat < end_.toNat := BitVec.lt_def.mp inside
        have next : (i + 4096).toNat = i.toNat + 4096 := by
          rw [BitVec.toNat_add]
          change (i.toNat + 4096) % 2 ^ 64 = _
          omega
        have here := empty 0 (by omega)
        rw [Nat.zero_mul] at here
        have start : i + BitVec.ofNat 64 0 = i := BitVec.add_zero i
        rw [start] at here
        rw [if_pos inside, loadEntry_nothing here]
        apply ih
        · rw [next]
          omega
        · rw [next]
          omega
        · intro count inRange
          rw [next] at inRange
          rw [← add_page]
          exact empty (count + 1) (by omega)
      · rw [if_neg inside]

/-- Pages are loaded, or there was nothing to load. -/
theorem loadSwappedPages_takes
    {index : Nat}
    (loaded : loadSwappedPages device space index sec = .ok target) :
    space.kallocPageCnt < target.kallocPageCnt ∨
      target.kallocPageCnt = space.kallocPageCnt ∧
        target.killed = space.killed ∧ LoadsNothing space sec := by
  unfold loadSwappedPages at loaded
  by_cases unswapped : sec.flags &&& stSwap = 0
  · rw [if_pos unswapped] at loaded
    cases loaded
  · by_cases locked : sec.sleepLock = 0
    · rw [if_neg unswapped, if_pos locked] at loaded
      cases loaded
    · rw [if_neg unswapped, if_neg locked] at loaded
      rcases of_bind_halt loaded with ⟨middle, loop, rest⟩
      cases rest
      rcases loadFrom_takes loop with takes | ⟨rfl, last, empty, past⟩
      · exact Or.inl takes
      · refine Or.inr ⟨rfl, rfl, locked, ?_, ?_⟩
        · rw [BitVec.lt_def, BitVec.toNat_add, BitVec.toNat_ofNat] at past
          omega
        · intro count inRange
          apply empty
          by_contra beyond
          apply past
          rw [BitVec.lt_def, BitVec.toNat_add, BitVec.toNat_ofNat]
          have bound := sec.end_.isLt
          omega

theorem loadSwappedPages_nothing
    {index : Nat}
    (swapped : sec.flags &&& stSwap ≠ 0)
    (nothing : LoadsNothing space sec) :
    loadSwappedPages device space index sec =
      .ok { space with
        sections :=
          space.sections.set index
            { sec with flags := sec.flags &&& ~~~stSwap } } := by
  have loop :
      loadFrom device sec.end_ (allPages + 1) sec.begin space =
        .ok space := by
    apply loadFrom_nothing nothing.ends
    · have bound := sec.end_.isLt
      unfold allPages
      omega
    · exact nothing.empty
  unfold loadSwappedPages
  rw [if_neg swapped, if_neg nothing.unlocked, loop]
  rfl

end Loading

/-! ## The entry -/

section Entry

variable
    {device : Device}
    {space target : Space}
    {tables : List Word → Option Word}
    {values : Word → Word}
    {addr iss table : Word}
    {index : Nat}
    {sec : Section}

theorem or_userData_ne_zero (physical : Word) :
    physical ||| pteUserData ≠ 0 := by
  intro zero
  exact absurd (BitVec.or_eq_zero_iff.mp zero).2 (by decide)

/-- A page is mapped with the right to write. -/
theorem or_userData_writable
    {page : Word}
    (isPage : IsPage page) :
    (k2p page ||| pteUserData) &&& pteRo = 0 := by
  rcases isPage with ⟨physical, rfl, aligned⟩
  have low : physical &&& pteRo = 0 := by
    have mask : (0xFFFF000000000FFF : Word) &&& pteRo = pteRo := by decide
    rw [← mask, ← BitVec.and_assoc]
    unfold pteFlags at aligned
    rw [aligned]
    rfl
  have noFlag : pteUserData &&& pteRo = 0 := by decide
  rw [k2p_p2k, BitVec.and_comm, BitVec.and_or_distrib_left,
    BitVec.and_comm pteRo physical, low, BitVec.and_comm, noFlag]
  rfl

/-- A page which is taken was free, and the tables stay. -/
theorem userPageAlloc_keeps
    {page : Option Word}
    (shape : Shape space.table tables values)
    (called : userPageAlloc space = .ok (page, target)) :
    Holds target.table tables values ∧
      space.kallocPageCnt ≤ target.kallocPageCnt ∧
      target.table.memory = space.table.memory ∧
      target.table.pt = space.table.pt ∧
      ∀ taken, page = some taken → taken ∈ space.table.supply := by
  rcases userPageAlloc_eq called with
    ⟨rfl, rfl⟩ | ⟨taken, rest, rfl, supply, rfl⟩
  · exact ⟨holds_of_shape shape, le_refl _, rfl, rfl, nofun⟩
  · refine ⟨⟨space.table.supply, shape⟩, ?_, rfl, rfl, ?_⟩
    · change space.kallocPageCnt ≤ space.kallocPageCnt + 1
      omega
    · rintro other same
      cases same
      rw [supply]
      exact List.mem_cons_self

theorem kfreePage_keeps
    {page : Word}
    (released : kfreePage space page = .ok target) :
    target.table.memory = space.table.memory ∧
      target.table.pt = space.table.pt := by
  by_cases inside : pageIndex page < Pages.physPages
  · rcases Sbrk.kfreePage_eq space inside with
      ⟨freed, same, -, -, -, -, memory, pt⟩
    rw [same] at released
    cases released
    exact ⟨memory, pt⟩
  · unfold kfreePage at released
    rw [if_pos (Nat.not_lt.mp inside)] at released
    cases released

/-- A new page is mapped, so the entry is another one. -/
theorem handleEntry_maps
    (shape : Shape space.table tables values)
    (here : tables (path addr 3) = some table)
    (empty : values addr = 0)
    (unswapped : sec.flags &&& stSwap = 0)
    {returned : Word}
    (result :
      (handleEntry device space index sec iss
        (entryAddress table (part addr 3))).result =
          .ok (returned, target)) :
    ¬ Untouched space target ∧
      space.kallocPageCnt ≤ target.kallocPageCnt := by
  unfold handleEntry at result
  rw [shape.leaf addr table here, if_pos empty] at result
  dsimp only at result
  rw [if_neg (not_not.mpr unswapped)] at result
  rcases of_bind_halt result with ⟨⟨page, middle⟩, made, stored⟩
  cases stored
  rcases userPageAlloc_keeps shape made with ⟨still, more, -, -, -⟩
  refine ⟨?_, more⟩
  intro untouched
  have same := untouched.entries addr
  rw [foundEntry_store still here, foundEntry_eq (holds_of_shape shape), here]
    at same
  have equal : k2p (page.getD 0) ||| pteUserData = values addr :=
    Option.some.inj same
  rw [empty] at equal
  exact or_userData_ne_zero _ equal

/-- A page is copied, so that it may be written. -/
theorem handleEntry_copies
    (shape : Shape space.table tables values)
    (here : tables (path addr 3) = some table)
    (some_ : values addr ≠ 0)
    (readOnly : values addr &&& pteRo ≠ 0)
    {returned : Word}
    (result :
      (handleEntry device space index sec iss
        (entryAddress table (part addr 3))).result =
          .ok (returned, target)) :
    ¬ Untouched space target := by
  unfold handleEntry at result
  rw [shape.leaf addr table here, if_neg some_, if_pos readOnly] at result
  dsimp only at result
  rcases of_bind_halt result with ⟨⟨page, middle⟩, made, result⟩
  rcases of_bind_halt result with ⟨freed, released, result⟩
  rcases userPageAlloc_keeps shape made with
    ⟨-, -, memory, pt, supply⟩
  cases page with
  | none => cases result
  | some page =>
      cases result
      have free := supply page rfl
      have same := kfreePage_keeps released
      intro untouched
      have found := untouched.entries addr
      have filled :
          Holds
            (freed.fill page fun offset =>
              freed.table.memory
                (p2k (pteAddress (values addr)) +
                  BitVec.ofNat 64 offset)).table tables values :=
        holds_fill shape free (same.1.trans memory) (same.2.trans pt)
      rw [foundEntry_store filled here, foundEntry_eq (holds_of_shape shape),
        here] at found
      have equal : k2p page ||| pteUserData = values addr :=
        Option.some.inj found
      rw [← equal] at readOnly
      exact readOnly (or_userData_writable (shape.pages page free))

/-- When the flags say that pages are swapped, they are loaded. -/
theorem handleEntry_loads
    (needs : NeedsFlags (space.table.memory addr))
    (swapped : sec.flags &&& stSwap ≠ 0) :
    (handleEntry device space index sec iss addr).result =
      (loadSwappedPages device space index sec).map fun target =>
        (iss, target) := by
  unfold handleEntry
  rcases needs with empty | ⟨writable, invalid⟩
  · rw [if_pos empty]
    dsimp only
    rw [if_pos swapped]
    rfl
  · by_cases empty : space.table.memory addr = 0
    · rw [if_pos empty]
      dsimp only
      rw [if_pos swapped]
      rfl
    · rw [if_neg empty, if_neg (not_not.mpr writable), if_pos invalid]
      dsimp only
      rw [if_pos swapped]
      rfl

/-- If no page was taken, there was nothing to load. -/
theorem handleEntry_loads_nothing
    (needs : NeedsFlags (space.table.memory addr))
    (swapped : sec.flags &&& stSwap ≠ 0)
    {returned : Word}
    (result :
      (handleEntry device space index sec iss addr).result =
        .ok (returned, target)) :
    space.kallocPageCnt < target.kallocPageCnt ∨
      target.kallocPageCnt = space.kallocPageCnt ∧
        target.killed = space.killed ∧ LoadsNothing space sec := by
  rw [handleEntry_loads needs swapped] at result
  cases loaded : loadSwappedPages device space index sec with
  | error _ =>
      rw [loaded] at result
      cases result
  | ok last =>
      rw [loaded] at result
      cases result
      exact loadSwappedPages_takes loaded

/-- An entry which may be written, or is of a page without flags, stays. -/
theorem handleEntry_stays
    (some_ : space.table.memory addr ≠ 0)
    (writable : space.table.memory addr &&& pteRo = 0)
    (stays :
      space.table.memory addr &&& pteValid ≠ 0 ∨
        sec.flags &&& stSwap = 0) :
    (handleEntry device space index sec iss addr).result =
      .ok (iss, space) := by
  unfold handleEntry
  rw [if_neg some_, if_neg (not_not.mpr writable)]
  by_cases invalid : space.table.memory addr &&& pteValid = 0
  · have unswapped : sec.flags &&& stSwap = 0 := by
      rcases stays with valid | unswapped
      · exact absurd invalid valid
      · exact unswapped
    rw [if_pos invalid]
    dsimp only
    rw [if_neg (not_not.mpr unswapped)]
    rfl
  · rw [if_neg invalid]

/-- The section whose flags are tested. -/
theorem tested_handleEntry
    {tested : Section} :
    (handleEntry device space index sec iss addr).tested = some tested ↔
      sec = tested ∧ NeedsFlags (space.table.memory addr) := by
  unfold handleEntry NeedsFlags
  by_cases empty : space.table.memory addr = 0
  · rw [if_pos empty]
    exact ⟨fun same => ⟨Option.some.inj same, Or.inl empty⟩,
      fun both => congrArg some both.1⟩
  · rw [if_neg empty]
    by_cases writable : space.table.memory addr &&& pteRo = 0
    · rw [if_neg (not_not.mpr writable)]
      by_cases invalid : space.table.memory addr &&& pteValid = 0
      · rw [if_pos invalid]
        exact ⟨fun same =>
            ⟨Option.some.inj same, Or.inr ⟨writable, invalid⟩⟩,
          fun both => congrArg some both.1⟩
      · rw [if_neg invalid]
        constructor
        · intro same
          cases same
        · rintro ⟨-, zero | ⟨-, zero⟩⟩
          · exact absurd zero empty
          · exact absurd zero invalid
    · rw [if_pos writable]
      constructor
      · intro same
        cases same
      · rintro ⟨-, zero | ⟨zero, -⟩⟩
        · exact absurd zero empty
        · exact absurd zero writable

end Entry

/-! ## The handler -/

section Handler

variable
    {device : Device}
    {space target : Space}
    {tables : List Word → Option Word}
    {values : Word → Word}
    {addr iss : Word}

theorem chooseSection_eq
    (addr : Word)
    (sections : List Section)
    (sec : Option (Nat × Section))
    (index : Nat) :
    (chooseSection addr sections sec index).map Prod.snd =
      (sections.find? fun sec => decide (sec.begin ≤ addr)).or
        (sections.getLast?.or (sec.map Prod.snd)) := by
  induction sections generalizing sec index with
  | nil => rfl
  | cons first rest ih =>
      unfold chooseSection
      by_cases below : first.begin ≤ addr
      · rw [if_pos below]
        simp [below]
      · rw [if_neg below, ih]
        cases rest with
        | nil => simp [below]
        | cons second others => simp [below, List.getLast?_cons]

/-- The handler takes the section which is expected. -/
theorem map_chooseSection :
    (chooseSection addr space.sections none 0).map Prod.snd =
      chosen space addr := by
  rw [chooseSection_eq]
  unfold chosen
  rw [Option.map_none, Option.or_none]

/-- What the handler does when it has found the entry. -/
theorem pgfaultHandler_eq
    {index : Nat}
    {sec : Section}
    {table : Word}
    {after : List Word → Option Word}
    {grown : Space}
    (isChosen :
      chooseSection addr space.sections none 0 = some (index, sec))
    (found : Found space tables values addr table after grown) :
    pgfaultHandler device space addr iss =
      handleEntry device grown index sec iss
        (entryAddress table (part addr 3)) := by
  unfold pgfaultHandler
  rw [isChosen, found.called]

theorem Found.entry
    {table : Word}
    {after : List Word → Option Word}
    {grown : Space}
    (shape : Shape space.table tables values)
    (found : Found space tables values addr table after grown) :
    grown.table.memory (entryAddress table (part addr 3)) =
      entryAt space addr := by
  rw [found.shape.leaf addr table found.here,
    (holds_of_shape shape).entryAt]

theorem tested_iff
    (shape : Shape space.table tables values)
    {sec : Section} :
    (pgfaultHandler device space addr iss).tested = some sec ↔
      TestsFlags space addr ∧ chosen space addr = some sec := by
  rw [← map_chooseSection]
  cases isChosen : chooseSection addr space.sections none 0 with
  | none =>
      unfold pgfaultHandler
      rw [isChosen]
      simp
  | some choice =>
      rcases choice with ⟨index, first⟩
      rw [Option.map_some]
      by_cases fit : TablesFit space addr
      · rcases found_of_tablesFit shape fit with
          ⟨table, after, grown, found⟩
        rw [pgfaultHandler_eq isChosen found, tested_handleEntry,
          found.entry shape]
        constructor
        · rintro ⟨rfl, needs⟩
          exact ⟨⟨fit, needs⟩, rfl⟩
        · rintro ⟨tests, same⟩
          exact ⟨Option.some.inj same, tests.2⟩
      · unfold pgfaultHandler
        rw [isChosen, getPte_of_not_fit fit]
        constructor
        · intro same
          cases same
        · rintro ⟨tests, -⟩
          exact absurd tests.1 fit

theorem Untouched.refl (space : Space) : Untouched space space :=
  ⟨fun _ => rfl, rfl⟩

/-- If nothing is touched, the entry was there and could stay. -/
theorem idle_of_untouched
    (shape : Shape space.table tables values)
    {returned : Word}
    (result :
      (pgfaultHandler device space addr iss).result =
        .ok (returned, target))
    (untouched : Untouched space target) :
    Idle space addr ∧ target.killed = space.killed := by
  cases isChosen : chooseSection addr space.sections none 0 with
  | none =>
      unfold pgfaultHandler at result
      rw [isChosen] at result
      cases result
  | some choice =>
      rcases choice with ⟨index, sec⟩
      have isSection : chosen space addr = some sec := by
        rw [← map_chooseSection, isChosen]
        rfl
      by_cases fit : TablesFit space addr
      · rcases found_of_tablesFit shape fit with
          ⟨table, after, grown, found⟩
        rw [pgfaultHandler_eq isChosen found] at result
        have value := found.shape.leaf addr table found.here
        cases there : tables (path addr 3) with
        | none =>
            -- The count of the pages has grown with the tables.
            exfalso
            have empty := shape.unwritten addr there
            have more := found.made there
            have same := untouched.pages
            by_cases unswapped : sec.flags &&& stSwap = 0
            · have later := (handleEntry_maps found.shape found.here empty
                unswapped result).2
              omega
            · rcases handleEntry_loads_nothing
                  (Or.inl (value.trans empty)) unswapped result with
                later | ⟨later, -, -⟩ <;> omega
        | some _ =>
            have same : grown = space := found.there (by
              rw [there]
              exact Option.some_ne_none _)
            subst same
            have isEntry : foundEntry grown addr = some (values addr) := by
              rw [foundEntry_eq (holds_of_shape shape), there]
              rfl
            have loads :
                NeedsFlags (values addr) → sec.flags &&& stSwap ≠ 0 →
                  target.killed = grown.killed ∧
                    LoadsNothing grown sec := by
              intro needs swapped
              rw [← value] at needs
              have same := untouched.pages
              rcases handleEntry_loads_nothing needs swapped result with
                more | ⟨-, nothing⟩
              · omega
              · exact nothing
            by_cases empty : values addr = 0
            · by_cases unswapped : sec.flags &&& stSwap = 0
              · exact absurd untouched (handleEntry_maps found.shape
                  found.here empty unswapped result).1
              · rcases loads (Or.inl empty) unswapped with
                  ⟨killed, nothing⟩
                exact ⟨⟨sec, _, isSection, isEntry,
                  Or.inl ⟨empty, unswapped, nothing⟩⟩, killed⟩
            · by_cases writable : values addr &&& pteRo = 0
              · by_cases stays :
                    values addr &&& pteValid ≠ 0 ∨
                      sec.flags &&& stSwap = 0
                · rw [← value] at empty writable stays
                  rw [handleEntry_stays empty writable stays] at result
                  cases result
                  rw [value] at empty writable stays
                  refine ⟨⟨sec, _, isSection, isEntry,
                    Or.inr ⟨empty, writable, ?_⟩⟩, rfl⟩
                  rcases stays with valid | unswapped
                  · exact Or.inl valid
                  · exact Or.inr (Or.inl unswapped)
                · rcases not_or.mp stays with ⟨valid, swapped⟩
                  rcases loads
                      (Or.inr ⟨writable, not_not.mp valid⟩) swapped with
                    ⟨killed, nothing⟩
                  exact ⟨⟨sec, _, isSection, isEntry,
                    Or.inr ⟨empty, writable,
                      Or.inr (Or.inr nothing)⟩⟩, killed⟩
              · exact absurd untouched (handleEntry_copies found.shape
                  found.here empty writable result)
      · unfold pgfaultHandler at result
        rw [isChosen, getPte_of_not_fit fit] at result
        cases result

/-- An entry which may stay does so. -/
theorem untouched_of_idle
    (shape : Shape space.table tables values)
    (idle : Idle space addr) :
    ∃ target,
      (pgfaultHandler device space addr iss).result = .ok (iss, target) ∧
        Untouched space target ∧ target.killed = space.killed := by
  rcases idle with ⟨sec, entry, isSection, isEntry, stays⟩
  rw [← map_chooseSection] at isSection
  rcases Option.map_eq_some_iff.mp isSection with
    ⟨⟨index, first⟩, isChosen, same⟩
  change first = sec at same
  subst same
  rw [foundEntry_eq (holds_of_shape shape)] at isEntry
  rcases Option.map_eq_some_iff.mp isEntry with ⟨last, there, value⟩
  have fit : TablesFit space addr := by
    cases (holds_of_shape shape).finds addr with
    | nothing _ _ absent =>
        rw [there] at absent
        cases absent
    | entry _ _ called _ => exact ⟨_, _, getPte_there called⟩
  rcases found_of_tablesFit shape fit with ⟨table, after, grown, found⟩
  have same : grown = space := found.there (by
    rw [there]
    exact Option.some_ne_none _)
  subst same
  have read := (found.shape.leaf addr table found.here).trans value
  rw [pgfaultHandler_eq isChosen found]
  have loads :
      NeedsFlags entry → first.flags &&& stSwap ≠ 0 →
        LoadsNothing grown first →
          ∃ target,
            (handleEntry device grown index first iss
              (entryAddress table (part addr 3))).result =
                .ok (iss, target) ∧
              Untouched grown target ∧ target.killed = grown.killed := by
    intro needs swapped nothing
    rw [← read] at needs
    rw [handleEntry_loads needs swapped,
      loadSwappedPages_nothing swapped nothing]
    exact ⟨_, rfl, ⟨fun _ => rfl, rfl⟩, rfl⟩
  rcases stays with
    ⟨empty, swapped, nothing⟩ | ⟨some_, writable, stays⟩
  · exact loads (Or.inl empty) swapped nothing
  · by_cases quiet :
        entry &&& pteValid ≠ 0 ∨ first.flags &&& stSwap = 0
    · rw [← read] at some_ writable quiet
      exact ⟨grown, handleEntry_stays some_ writable quiet,
        Untouched.refl grown, rfl⟩
    · rcases not_or.mp quiet with ⟨valid, swapped⟩
      rcases stays with isValid | unswapped | nothing
      · exact absurd isValid valid
      · exact absurd unswapped swapped
      · exact loads (Or.inr ⟨writable, not_not.mp valid⟩) swapped nothing

end Handler

/--
The handler meets what is expected exactly if it takes a section around the
address, or does not look at its flags; and outside the sections, if the fault
is a write to a page which may be read only, or the process was killed before
and the entry may stay as it is.
-/
theorem resolves_iff
    {device : Device}
    {space : Space}
    {tables : List Word → Option Word}
    {values : Word → Word}
    {addr iss : Word}
    (shape : Shape space.table tables values) :
    Resolves device space addr iss ↔
      (Inside space addr ∧
        (TestsFlags space addr →
          ∀ sec, chosen space addr = some sec → Contains sec addr)) ∨
        (¬ Inside space addr ∧
          (OnReadOnly space addr iss ∨
            space.killed = true ∧ Idle space addr)) := by
  by_cases inside : Inside space addr
  · constructor
    · intro resolves
      refine Or.inl ⟨inside, ?_⟩
      intro tests sec isChosen
      exact resolves.inside inside sec
        ((tested_iff shape).mpr ⟨tests, isChosen⟩)
    · rintro (⟨-, contains⟩ | ⟨outside, -⟩)
      · constructor
        · intro _ sec isTested
          rcases (tested_iff shape).mp isTested with ⟨tests, isChosen⟩
          exact contains tests sec isChosen
        · intro outside
          exact absurd inside outside
      · exact absurd inside outside
  · constructor
    · intro resolves
      refine Or.inr ⟨inside, ?_⟩
      by_cases readOnly : OnReadOnly space addr iss
      · exact Or.inl readOnly
      · rcases resolves.outside inside readOnly with
          ⟨target, result, untouched, killed⟩
        rcases idle_of_untouched shape result untouched with ⟨idle, same⟩
        exact Or.inr ⟨same.symm.trans killed, idle⟩
    · rintro (⟨within, -⟩ | ⟨-, expected⟩)
      · exact absurd within inside
      · constructor
        · intro within
          exact absurd within inside
        · intro _ notReadOnly
          rcases expected with readOnly | ⟨killed, idle⟩
          · exact absurd readOnly notReadOnly
          · rcases untouched_of_idle shape idle with
              ⟨target, result, untouched, same⟩
            exact ⟨target, result, untouched, same.trans killed⟩

theorem stackTable_shape
    {table : PageTable.State}
    (made : Sbrk.stackTable = some table) :
    ∃ tables, Shape table tables (written Sbrk.stackLabels) := by
  rcases Sbrk.stackTable_run made with ⟨start, finish, started, run, rfl⟩
  rcases invariant_of_run firstPages_isPage firstPages_nodup started run with
    ⟨tables, invariant⟩
  exact ⟨tables, invariant.shape⟩

/-- A device whose blocks are zero. -/
def zeroDevice : Device :=
  fun _ _ => 0

/-- With a heap of one page, a fault in that page is resolved. -/
def heapProcess (table : PageTable.State) : Space :=
  { Sbrk.stackProcess table with sections := [⟨8, 0x400000, 0x401000, 1⟩] }

theorem resolves_heap :
    ∃ table,
      Resolves zeroDevice (heapProcess table) 0x400123 0x46 ∧
        Resolves zeroDevice
          { heapProcess table with killed := true } 0xFFFFFFFFF008 0x06 := by
  rcases Sbrk.stackTable_made with ⟨table, made⟩
  rcases stackTable_shape made with ⟨tables, shape⟩
  refine ⟨table, ?_, ?_⟩
  · apply (resolves_iff
      (show Shape (heapProcess table).table tables _ from shape)).mpr
    refine Or.inl ⟨⟨_, List.mem_singleton_self _, by decide, by decide⟩, ?_⟩
    intro _ sec isChosen
    have same : chosen (heapProcess table) 0x400123 =
        some ⟨8, 0x400000, 0x401000, 1⟩ := rfl
    rw [same] at isChosen
    cases isChosen
    exact ⟨by decide, by decide⟩
  · apply (resolves_iff
      (show Shape { heapProcess table with killed := true }.table tables _
        from shape)).mpr
    refine Or.inr ⟨?_, Or.inr ⟨rfl, ⟨8, 0x400000, 0x401000, 1⟩,
      0x108000 ||| pteUserData, ?_, ?_, Or.inr ⟨by decide, by decide,
        Or.inl (by decide)⟩⟩⟩
    · rintro ⟨sec, member, -, below⟩
      cases List.mem_singleton.mp member
      revert below
      decide
    · rfl
    · rw [foundEntry_eq
        (show Holds { heapProcess table with killed := true }.table tables _
          from holds_of_shape shape)]
      cases there : tables (path 0xFFFFFFFFF008 3) with
      | none =>
          have empty := shape.unwritten 0xFFFFFFFFF008 there
          revert empty
          decide
      | some _ =>
          rw [Option.map_some]
          decide

/-- A fault outside the sections maps a page, and the process goes on. -/
theorem wild_pointer_mapped :
    ∃ table,
      Sbrk.stackTable = some table ∧
        ¬ Inside (Sbrk.stackProcess table) 0x400123 ∧
        foundEntry (Sbrk.stackProcess table) 0x400123 = none ∧
        (∃ target,
          (pgfaultHandler zeroDevice (Sbrk.stackProcess table) 0x400123
            0x46).result = .ok (0x46, target) ∧
          foundEntry target 0x400123 = some (0x107000 ||| pteUserData) ∧
          target.killed = false) ∧
        ¬ Resolves zeroDevice (Sbrk.stackProcess table) 0x400123 0x46 := by
  have computed :
      (Sbrk.stackTable.bind fun table =>
        let space := Sbrk.stackProcess table
        (pgfaultHandler zeroDevice space 0x400123
          0x46).result.toOption.map fun returned =>
            (foundEntry space 0x400123, returned.1,
              foundEntry returned.2 0x400123, returned.2.killed)) =
        some
          (none, 0x46, some (0x107000 ||| pteUserData), false) := by
    decide +kernel
  rcases Option.bind_eq_some_iff.mp computed with ⟨table, made, handled⟩
  rcases stackTable_shape made with ⟨tables, shape⟩
  have outside : ¬ Inside (Sbrk.stackProcess table) 0x400123 := by
    rintro ⟨sec, member, -, below⟩
    cases List.mem_singleton.mp member
    revert below
    decide
  dsimp only at handled
  cases result :
      (pgfaultHandler zeroDevice (Sbrk.stackProcess table) 0x400123
        0x46).result with
  | error _ =>
      rw [result] at handled
      cases handled
  | ok pair =>
      rcases pair with ⟨iss, target⟩
      rw [result] at handled
      injection handled with same
      injection same with before same
      injection same with sameIss same
      injection same with after alive
      subst sameIss
      refine ⟨table, made, outside, before,
        ⟨target, result, after, alive⟩, ?_⟩
      intro resolves
      have notReadOnly :
          ¬ OnReadOnly (Sbrk.stackProcess table) 0x400123 0x46 := by
        rintro ⟨-, valid, -⟩
        rw [entryAt_eq, before] at valid
        exact valid rfl
      rcases resolves.outside outside notReadOnly with
        ⟨last, finished, -, killed⟩
      rw [result] at finished
      injection finished with same
      injection same with _ same
      rw [same, killed] at alive
      cases alive

end FudanOS.Kernel.PageFaults
