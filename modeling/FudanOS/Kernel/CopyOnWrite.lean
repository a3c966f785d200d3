import FudanOS.Kernel.PageFaults

/-!
# Copies of read-only pages

`pgfault_handler` gives the old page back before it copies the page.  When the
reference was the last one, `kfree_page` links the page into the queue of the
free pages through the first word of the page, and the copy has the link.
-/

namespace FudanOS.Kernel.CopyOnWrite

open FudanOS.Aarch64.Mmu
open FudanOS.Library.BitFields
open FudanOS.Library.Runs
open FudanOS.Kernel.PageTable
open FudanOS.Kernel.Paging
open FudanOS.Kernel.PageFaults

/-! ## The queue of the free pages -/

/-- `*head`, the address of the first page of the queue, or `NULL` -/
def head (queue : List Word) : Word :=
  queue.headD 0

/-- `add_to_queue` writes the old `*head` to the start of the page. -/
def addToQueue (space : Space) (page : Word) : Space :=
  { space.store page (head space.table.supply) with
    kallocPageCnt := space.kallocPageCnt - 1
    table :=
      { (space.store page (head space.table.supply)).table with
        supply := page :: space.table.supply } }

/-- `kfree_page(p)`, with the bytes which it writes to the page -/
def kfreePage (space : Space) (p : Word) : Except Halt Space :=
  if Pages.physPages ≤ pageIndex p then
    .error .overrun
  else
    let count := space.refpage (pageIndex p) - 1
    let space :=
      { space with
        refpage := Function.update space.refpage (pageIndex p) count }
    if space.refpage (pageIndex p) = 0 then
      .ok (addToQueue space p)
    else
      .ok space

/-! ## The copy -/

/-- The page which an entry points to. -/
def pageIn (entry : Word) : Word :=
  p2k (pteAddress entry)

/-- `memmove` of a page to another one -/
def copyPage (space : Space) (target source : Word) : Space :=
  space.fill target fun offset =>
    space.table.memory (source + BitVec.ofNat 64 offset)

/-- The branch of `pgfault_handler` for an entry with `PTE_RO`. -/
def copyOnWrite (space : Space) (iss pte : Word) :
    Except Halt (Word × Space) := do
  let (p, space) ← userPageAlloc space
  let space ← kfreePage space (pageIn (space.table.memory pte))
  match p with
  | none => throw .null
  | some p =>
      let space := copyPage space p (pageIn (space.table.memory pte))
      return (iss, space.store pte (k2p p ||| pteUserData))

/--
`pgfault_handler(iss)` when `arch_get_far()` is `addr`.  For entries without
`PTE_RO` no page is given back, and it is the handler of `Paging`.
-/
def pgfaultHandler (device : Device) (space : Space) (addr iss : Word) :
    Except Halt (Word × Space) :=
  match chooseSection addr space.sections none 0 with
  | none => .error .assertion
  | some (index, sec) =>
      match getPte space addr true with
      | .error halt => .error halt
      | .ok (none, _) => .error .null
      | .ok (some pte, space) =>
          if space.table.memory pte ≠ 0 ∧
              space.table.memory pte &&& pteRo ≠ 0 then
            copyOnWrite space iss pte
          else
            (handleEntry device space index sec iss pte).result

/-! ## What a process may expect -/

/-- The entry of an address, as a place in memory. -/
def slotOf (space : Space) (va : Word) : Option Word :=
  match PageTable.getPte space.table va false with
  | .ok (pte, _) => pte
  | .error _ => none

/--
The memory while a process runs: `slots` are the entries of the last tables of
all processes.  Neither the entries nor the mapped pages are free, and the
tables do not lie in mapped pages.
-/
structure Formed
    (space : Space)
    (tables : List Word → Option Word)
    (values : Word → Word)
    (slots : Set Word) : Prop where
  shape : Shape space.table tables values
  sections : space.sections ≠ []
  own :
    ∀ va table, tables (path va 3) = some table →
      entryAddress table (part va 3) ∈ slots
  unused :
    ∀ page ∈ space.table.supply, space.refpage (pageIndex page) = 0
  apart :
    ∀ page ∈ space.table.supply, ∀ slot ∈ slots, ¬ InPage page slot
  inside :
    ∀ slot ∈ slots, space.table.memory slot &&& pteValid ≠ 0 →
      pageIndex (pageIn (space.table.memory slot)) < Pages.physPages
  taken :
    ∀ slot ∈ slots, space.table.memory slot &&& pteValid ≠ 0 →
      pageIn (space.table.memory slot) ∉ space.table.supply
  outside :
    ∀ slot ∈ slots, space.table.memory slot &&& pteValid ≠ 0 →
      (∀ other ∈ slots, ¬ InPage (pageIn (space.table.memory slot)) other) ∧
        ∀ route, tables route ≠ some (pageIn (space.table.memory slot))

/-- The process has a page of its own with the bytes of the old page. -/
structure Copies
    (slots : Set Word)
    (space : Space)
    (addr : Word)
    (target : Space) : Prop where
  valid : entryAt target addr &&& pteValid ≠ 0
  user : entryAt target addr &&& pteUser ≠ 0
  writable : entryAt target addr &&& pteRo = 0
  content :
    ∀ offset < pageSize,
      target.table.memory
          (pageIn (entryAt target addr) + BitVec.ofNat 64 offset) =
        space.table.memory
          (pageIn (entryAt space addr) + BitVec.ofNat 64 offset)
  /-- The new page is referenced once, and no other entry maps it. -/
  once : target.refpage (pageIndex (pageIn (entryAt target addr))) = 1
  alone :
    ∀ slot ∈ slots, slotOf target addr ≠ some slot →
      target.table.memory slot &&& pteValid ≠ 0 →
        pageIn (target.table.memory slot) ≠ pageIn (entryAt target addr)
  /-- The old page has one reference fewer, and is free when none is left. -/
  released :
    target.refpage (pageIndex (pageIn (entryAt space addr))) =
      space.refpage (pageIndex (pageIn (entryAt space addr))) - 1
  queued :
    pageIn (entryAt space addr) ∈ target.table.supply ↔
      target.refpage (pageIndex (pageIn (entryAt space addr))) = 0
  /-- The other entries for the old page stay, and so do its bytes. -/
  entries :
    ∀ slot ∈ slots, slotOf space addr ≠ some slot →
      target.table.memory slot = space.table.memory slot
  bytes :
    ∀ offset < pageSize,
      target.table.memory
          (pageIn (entryAt space addr) + BitVec.ofNat 64 offset) =
        space.table.memory
          (pageIn (entryAt space addr) + BitVec.ofNat 64 offset)

/--
A page can be taken, and giving the old page back leaves its bytes: there are
other references, or its first word is the link already.
-/
structure Copyable (space : Space) (addr : Word) : Prop where
  left : 1024 < leftPageCnt space
  offered : space.table.supply ≠ []
  kept :
    space.refpage (pageIndex (pageIn (entryAt space addr))) ≠ 1 ∨
      space.table.memory (pageIn (entryAt space addr)) =
        head space.table.supply.tail

/-! ## Pages and entries -/

section Pages

variable
    {state other : PageTable.State}
    {space : Space}
    {tables : List Word → Option Word}
    {values : Word → Word}
    {page second table address va : Word}

/-- The start of a page is an entry of the page only. -/
theorem ne_entryAddress
    (isPage : IsPage page)
    (isTable : IsPage table)
    (different : page ≠ table)
    {index : Word}
    (bound : index.toNat < 512) :
    entryAddress table index ≠ page := by
  intro same
  apply different
  apply (inPage_entryAddress isPage isTable bound).mp
  rw [same]
  unfold InPage pageSize
  rw [BitVec.sub_self]
  decide

/-- The page table is the same where its entries are. -/
theorem holds_of_entries
    (holds : Holds state tables values)
    (root : other.pt = state.pt)
    (same :
      ∀ route table, tables route = some table →
        ∀ index : Word, index.toNat < 512 →
          other.memory (entryAddress table index) =
            state.memory (entryAddress table index)) :
    Holds other tables values := by
  rcases holds with ⟨supply, shape⟩
  refine ⟨supply, root.trans shape.root, shape.rooted, shape.pages,
    shape.nodup, shape.used, shape.injective, shape.closed, ?_, ?_,
    shape.unwritten⟩
  · intro va level table inside here
    exact (same _ _ here _ (part_lt va level)).trans
      (shape.inner va level table inside here)
  · intro va table here
    exact (same _ _ here _ (part_lt va 3)).trans (shape.leaf va table here)

theorem slotOf_eq
    (holds : Holds space.table tables values)
    (here : tables (path va 3) = some table) :
    slotOf space va = some (entryAddress table (part va 3)) := by
  unfold slotOf
  cases holds.finds va with
  | entry found there called _ =>
      rw [here] at there
      cases there
      rw [called]
  | nothing _ _ absent =>
      rw [here] at absent
      cases absent

end Pages

/-! ## The branch -/

section Branch

variable
    {space target : Space}
    {tables : List Word → Option Word}
    {values : Word → Word}
    {slots : Set Word}
    {addr iss pte page old : Word}
    {rest : List Word}

/-- A page has been taken from the queue. -/
def taken (space : Space) (page : Word) (rest : List Word) : Space :=
  ({ space with table := { space.table with supply := rest } }
    : Space).count page

variable (space) in
/-- A page of the physical memory is given back. -/
theorem kfreePage_eq
    (inside : pageIndex old < Pages.physPages) :
    ∃ target,
      kfreePage space old = .ok target ∧
        target.table.pt = space.table.pt ∧
        target.refpage =
          Function.update space.refpage (pageIndex old)
            (space.refpage (pageIndex old) - 1) ∧
        target.table.memory =
          (if space.refpage (pageIndex old) = 1 then
            Function.update space.table.memory old
              (head space.table.supply)
          else
            space.table.memory) ∧
        target.table.supply =
          if space.refpage (pageIndex old) = 1 then
            old :: space.table.supply
          else
            space.table.supply := by
  unfold kfreePage
  rw [if_neg (Nat.not_le.mpr inside)]
  dsimp only
  by_cases last : space.refpage (pageIndex old) = 1
  · have none_ : space.refpage (pageIndex old) - 1 = 0 := by omega
    rw [if_pos (by rw [Function.update_self]; exact none_), if_pos last,
      if_pos last]
    exact ⟨_, rfl, rfl, rfl, rfl, rfl⟩
  · have some_ : space.refpage (pageIndex old) - 1 ≠ 0 := by omega
    rw [if_neg (by rw [Function.update_self]; exact some_), if_neg last,
      if_neg last]
    exact ⟨_, rfl, rfl, rfl, rfl, rfl⟩

/-- Without a page to copy to, the branch does not end well. -/
theorem copyOnWrite_stops
    (few : leftPageCnt space ≤ 1024 ∨ space.table.supply = []) :
    copyOnWrite space iss pte ≠ .ok (iss, target) := by
  intro result
  unfold copyOnWrite at result
  rcases of_bind_halt result with ⟨⟨page, middle⟩, made, freeing⟩
  rcases of_bind_halt freeing with ⟨freed, _, copying⟩
  unfold userPageAlloc at made
  by_cases little : leftPageCnt space ≤ 1024
  · rw [if_pos little] at made
    cases page with
    | none => cases copying
    | some _ => cases made
  · rw [if_neg little] at made
    rcases few with less | empty
    · exact little less
    · rcases of_bind_halt made with ⟨_, fetched, _⟩
      unfold kallocPage at fetched
      rw [empty] at fetched
      cases fetched

/-- The first step of a function has been taken. -/
theorem ok_bind
    {Value Result : Type}
    (value : Value)
    (continuation : Value → Except Halt Result) :
    (Except.ok value >>= continuation) = continuation value :=
  rfl

/-- What the branch leaves when it has a page. -/
structure Leaves
    (space : Space)
    (pte old page : Word)
    (rest : List Word)
    (target : Space) : Prop where
  root : target.table.pt = space.table.pt
  supply :
    target.table.supply =
      if space.refpage (pageIndex old) = 1 then old :: rest else rest
  refpage :
    target.refpage =
      Function.update
        (Function.update space.refpage (pageIndex page)
          (space.refpage (pageIndex page) + 1))
        (pageIndex old) (space.refpage (pageIndex old) - 1)
  entry : target.table.memory pte = k2p page ||| pteUserData
  copied :
    ∀ offset < pageSize,
      target.table.memory (page + BitVec.ofNat 64 offset) =
        if space.refpage (pageIndex old) = 1 ∧ offset = 0 then
          head rest
        else
          space.table.memory (old + BitVec.ofNat 64 offset)
  kept :
    ∀ address, address ≠ pte → ¬ InPage page address →
      target.table.memory address =
        if space.refpage (pageIndex old) = 1 ∧ address = old then
          head rest
        else
          space.table.memory address

variable (iss) in
theorem copyOnWrite_leaves
    (left : 1024 < leftPageCnt space)
    (supply : space.table.supply = page :: rest)
    (isOld : pageIn (space.table.memory pte) = old)
    (oldPage : IsPage old)
    (isPage : IsPage page)
    (different : old ≠ page)
    (inside : pageIndex old < Pages.physPages)
    (outside : ¬ InPage page pte)
    (apart : ¬ InPage old pte) :
    ∃ target,
      copyOnWrite space iss pte = .ok (iss, target) ∧
        Leaves space pte old page rest target := by
  have made :
      userPageAlloc space = .ok (some page, taken space page rest) := by
    unfold userPageAlloc kallocPage
    rw [if_neg (not_le.mpr left), supply]
    rfl
  have indices : pageIndex old ≠ pageIndex page :=
    fun same => different (pageIndex_inj oldPage isPage same)
  have count :
      (taken space page rest).refpage (pageIndex old) =
        space.refpage (pageIndex old) := by
    unfold taken Space.count
    dsimp only
    rw [Function.update_of_ne indices]
  rcases kfreePage_eq (taken space page rest) inside with
    ⟨freed, released, root, refpage, memory, free⟩
  rw [count] at refpage memory free
  have still : pageIn (freed.table.memory pte) = old := by
    rw [memory]
    by_cases last : space.refpage (pageIndex old) = 1
    · rw [if_pos last, Function.update_of_ne]
      · exact isOld
      · rintro rfl
        apply apart
        unfold InPage pageSize
        rw [BitVec.sub_self]
        decide
    · rw [if_neg last]
      exact isOld
  have freedMemory :
      ∀ address,
        freed.table.memory address =
          if space.refpage (pageIndex old) = 1 ∧ address = old then
            head rest
          else
            space.table.memory address := by
    intro address
    rw [memory]
    by_cases last : space.refpage (pageIndex old) = 1
    · rw [if_pos last]
      by_cases start : address = old
      · rw [start, Function.update_self, if_pos ⟨last, rfl⟩]
        rfl
      · rw [Function.update_of_ne start, if_neg fun both => start both.2]
        rfl
    · rw [if_neg last, if_neg fun both => last both.1]
      rfl
  refine ⟨(copyPage freed page old).store pte (k2p page ||| pteUserData),
    ?_, root, free, refpage, Function.update_self .., ?_, ?_⟩
  · unfold copyOnWrite
    have isOld' :
        pageIn ((taken space page rest).table.memory pte) = old :=
      isOld
    rw [made, ok_bind]
    dsimp only
    rw [isOld', released, ok_bind, still]
    rfl
  · intro offset within
    rcases inPage_offset page within with ⟨inPage, back⟩
    have apartFromEntry : page + BitVec.ofNat 64 offset ≠ pte := by
      rintro rfl
      exact outside inPage
    unfold Space.store PageTable.State.store copyPage Space.fill
    dsimp only
    rw [Function.update_of_ne apartFromEntry, if_pos inPage, back,
      freedMemory]
    have zero :
        old + BitVec.ofNat 64 offset = old ↔ offset = 0 := by
      constructor
      · intro same
        have address := congrArg BitVec.toNat same
        rw [toNat_offset oldPage within] at address
        omega
      · rintro rfl
        exact BitVec.add_zero old
    simp only [zero]
  · intro address notEntry notPage
    unfold Space.store PageTable.State.store copyPage Space.fill
    dsimp only
    rw [Function.update_of_ne notEntry, if_neg notPage, freedMemory]

end Branch

/-! ## The handler -/

section Handler

variable
    {device : Device}
    {space target : Space}
    {tables : List Word → Option Word}
    {values : Word → Word}
    {slots : Set Word}
    {addr iss page table : Word}
    {rest : List Word}

theorem chooseSection_some
    (sections : List Section)
    (sec : Option (Nat × Section))
    (index : Nat)
    (some_ : sections ≠ [] ∨ sec ≠ none) :
    chooseSection addr sections sec index ≠ none := by
  induction sections generalizing sec index with
  | nil =>
      rcases some_ with impossible | some_
      · exact absurd rfl impossible
      · exact some_
  | cons first others ih =>
      unfold chooseSection
      by_cases below : first.begin ≤ addr
      · rw [if_pos below]
        exact Option.some_ne_none _
      · rw [if_neg below]
        exact ih _ _ (Or.inr (Option.some_ne_none _))

theorem and_or_ne_zero
    (word : Word)
    {flags flag : Word}
    (set : flags &&& flag ≠ 0) :
    (word ||| flags) &&& flag ≠ 0 := by
  intro zero
  have distributed :
      (word ||| flags) &&& flag = word &&& flag ||| flags &&& flag :=
    BitVec.and_or_distrib_right
  rw [distributed] at zero
  exact set (BitVec.or_eq_zero_iff.mp zero).2

/-- The entry of a mapped address is in its table. -/
theorem Formed.slot
    (formed : Formed space tables values slots)
    (valid : entryAt space addr &&& pteValid ≠ 0) :
    ∃ table,
      tables (path addr 3) = some table ∧
        entryAddress table (part addr 3) ∈ slots ∧
        slotOf space addr = some (entryAddress table (part addr 3)) ∧
        space.table.memory (entryAddress table (part addr 3)) =
          entryAt space addr := by
  have holds := holds_of_shape formed.shape
  rw [holds.entryAt] at valid ⊢
  cases here : tables (path addr 3) with
  | none =>
      rw [formed.shape.unwritten addr here] at valid
      exact absurd BitVec.zero_and valid
  | some table =>
      exact ⟨table, rfl, formed.own addr table here, slotOf_eq holds here,
        formed.shape.leaf addr table here⟩

/-- A read-only entry is copied. -/
theorem pgfaultHandler_eq
    (formed : Formed space tables values slots)
    (here : tables (path addr 3) = some table)
    (valid :
      space.table.memory (entryAddress table (part addr 3)) &&& pteValid ≠ 0)
    (readOnly :
      space.table.memory (entryAddress table (part addr 3)) &&& pteRo ≠ 0) :
    pgfaultHandler device space addr iss =
      copyOnWrite space iss (entryAddress table (part addr 3)) := by
  have fit : TablesFit space addr := by
    cases (holds_of_shape formed.shape).finds addr with
    | entry _ _ called _ => exact ⟨_, _, getPte_there called⟩
    | nothing _ _ absent =>
        rw [here] at absent
        cases absent
  rcases found_of_tablesFit formed.shape fit with
    ⟨last, after, grown, found⟩
  have there : tables (path addr 3) ≠ none := by
    rw [here]
    exact Option.some_ne_none table
  have same := found.there there
  subst same
  have isTable : last = table := by
    have first := slotOf_eq (holds_of_shape found.shape) found.here
    rw [slotOf_eq (holds_of_shape formed.shape) here] at first
    exact (entryAddress_inj (formed.shape.used _ _ here).1
      (found.shape.used _ _ found.here).1 (part_lt addr 3) (part_lt addr 3)
      (Option.some.inj first)).1.symm
  subst isTable
  unfold pgfaultHandler
  cases isChosen : chooseSection addr grown.sections none 0 with
  | none =>
      exact absurd isChosen
        (chooseSection_some _ none 0 (Or.inl formed.sections))
  | some choice =>
      rcases choice with ⟨index, sec⟩
      have nonzero :
          grown.table.memory (entryAddress last (part addr 3)) ≠ 0 := by
        intro zero
        rw [zero] at valid
        exact valid BitVec.zero_and
      dsimp only
      rw [found.called]
      dsimp only
      rw [if_pos ⟨nonzero, readOnly⟩]

/-- The tables which the branch leaves. -/
theorem Leaves.holds
    {old : Word}
    (leaves :
      Leaves space (entryAddress table (part addr 3)) old page rest target)
    (shape : Shape space.table tables values)
    (here : tables (path addr 3) = some table)
    (isPage : IsPage page)
    (oldPage : IsPage old)
    (notPage : ∀ route, tables route ≠ some page)
    (notOld : ∀ route, tables route ≠ some old) :
    Holds target.table tables fun va =>
      if Agree 12 47 addr va then k2p page ||| pteUserData
      else values va := by
  refine holds_of_entries
    ((holds_of_shape shape).write here (k2p page ||| pteUserData))
    leaves.root ?_
  intro route other there index bound
  have isOther := (shape.used route other there).1
  change _ = Function.update space.table.memory _ _ _
  by_cases entry :
      entryAddress other index = entryAddress table (part addr 3)
  · rw [entry, Function.update_self]
    exact leaves.entry
  · rw [Function.update_of_ne entry, leaves.kept _ entry, if_neg]
    · rintro ⟨-, same⟩
      refine ne_entryAddress oldPage isOther ?_ bound same
      rintro rfl
      exact notOld route there
    · intro within
      have same := (inPage_entryAddress isPage isOther bound).mp within
      rw [← same] at there
      exact notPage route there

/-- What is known of the old page, the new page and the entry. -/
structure Distinct
    (space : Space)
    (slots : Set Word)
    (pte old page : Word)
    (rest : List Word) : Prop where
  member : pte ∈ slots
  oldPage : IsPage old
  isPage : IsPage page
  inside : pageIndex old < Pages.physPages
  different : old ≠ page
  indices : pageIndex page ≠ pageIndex old
  notFree : old ∉ rest
  unused : space.refpage (pageIndex page) = 0
  notPage : ∀ slot ∈ slots, ¬ InPage page slot
  notOld : ∀ slot ∈ slots, ¬ InPage old slot

theorem Formed.distinct
    {pte : Word}
    (formed : Formed space tables values slots)
    (supply : space.table.supply = page :: rest)
    (member : pte ∈ slots)
    (valid : space.table.memory pte &&& pteValid ≠ 0) :
    Distinct space slots pte (pageIn (space.table.memory pte)) page rest := by
  have free : page ∈ space.table.supply := by
    rw [supply]
    exact List.mem_cons_self
  have isPage := formed.shape.pages page free
  have oldPage : IsPage (pageIn (space.table.memory pte)) :=
    isPage_pteAddress _
  have taken := formed.taken pte member valid
  have different : pageIn (space.table.memory pte) ≠ page :=
    fun same => taken (same ▸ free)
  refine ⟨member, oldPage, isPage, formed.inside pte member valid,
    different, ?_, ?_, formed.unused page free, formed.apart page free,
    (formed.outside pte member valid).1⟩
  · intro same
    exact different (pageIndex_inj isPage oldPage same).symm
  · intro inRest
    apply taken
    rw [supply]
    exact List.mem_cons_of_mem page inRest

/-- The other entries are the same as before. -/
theorem Leaves.slot
    {pte old slot : Word}
    (leaves : Leaves space pte old page rest target)
    (distinct : Distinct space slots pte old page rest)
    (member : slot ∈ slots)
    (other : slot ≠ pte) :
    target.table.memory slot = space.table.memory slot := by
  rw [leaves.kept slot other (distinct.notPage slot member), if_neg]
  rintro ⟨-, rfl⟩
  apply distinct.notOld slot member
  unfold InPage pageSize
  rw [BitVec.sub_self]
  decide

/-- The bytes of both pages, when the link is there already or not needed. -/
theorem Leaves.bytes
    {pte old : Word}
    (leaves : Leaves space pte old page rest target)
    (distinct : Distinct space slots pte old page rest)
    (kept :
      space.refpage (pageIndex old) ≠ 1 ∨
        space.table.memory old = head rest)
    {offset : Nat}
    (inside : offset < pageSize) :
    target.table.memory (page + BitVec.ofNat 64 offset) =
        space.table.memory (old + BitVec.ofNat 64 offset) ∧
      target.table.memory (old + BitVec.ofNat 64 offset) =
        space.table.memory (old + BitVec.ofNat 64 offset) := by
  constructor
  · rw [leaves.copied offset inside]
    split_ifs with link
    · rcases link with ⟨last, rfl⟩
      rcases kept with several | same
      · exact absurd last several
      · rw [← same]
        exact congrArg space.table.memory (BitVec.add_zero old).symm
    · rfl
  · have notEntry : old + BitVec.ofNat 64 offset ≠ pte := by
      rintro rfl
      exact distinct.notOld _ distinct.member (inPage_offset old inside).1
    have notPage :=
      not_inPage_offset distinct.oldPage distinct.isPage distinct.different
        inside
    rw [leaves.kept _ notEntry notPage]
    split_ifs with link
    · rcases link with ⟨last, start⟩
      rcases kept with several | same
      · exact absurd last several
      · rw [start, same]
    · rfl

/-- The queue and the counts of the two pages. -/
theorem Leaves.counts
    {pte old : Word}
    (leaves : Leaves space pte old page rest target)
    (distinct : Distinct space slots pte old page rest) :
    target.refpage (pageIndex page) = 1 ∧
      target.refpage (pageIndex old) =
        space.refpage (pageIndex old) - 1 ∧
      (old ∈ target.table.supply ↔ target.refpage (pageIndex old) = 0) := by
  have released :
      target.refpage (pageIndex old) =
        space.refpage (pageIndex old) - 1 := by
    rw [leaves.refpage, Function.update_self]
  refine ⟨?_, released, ?_⟩
  · rw [leaves.refpage, Function.update_of_ne distinct.indices,
      Function.update_self, distinct.unused]
    rfl
  · rw [leaves.supply, released]
    split_ifs with last
    · rw [last]
      exact ⟨fun _ => rfl, fun _ => List.mem_cons_self⟩
    · constructor
      · intro member
        exact absurd member distinct.notFree
      · intro zero
        exact absurd (Int.sub_eq_zero.mp zero) last

/-- The copy is faithful exactly if the link does no harm. -/
theorem Leaves.faithful_iff
    (formed : Formed space tables values slots)
    (here : tables (path addr 3) = some table)
    (entry :
      space.table.memory (entryAddress table (part addr 3)) =
        entryAt space addr)
    (valid : entryAt space addr &&& pteValid ≠ 0)
    (supply : space.table.supply = page :: rest)
    (leaves :
      Leaves space (entryAddress table (part addr 3))
        (pageIn (entryAt space addr)) page rest target) :
    Copies slots space addr target ↔
      space.refpage (pageIndex (pageIn (entryAt space addr))) ≠ 1 ∨
        space.table.memory (pageIn (entryAt space addr)) = head rest := by
  have member := formed.own addr table here
  have validSlot := valid
  rw [← entry] at validSlot
  have distinct := formed.distinct supply member validSlot
  have tablesApart := (formed.outside _ member validSlot).2
  rw [entry] at distinct tablesApart
  have notPage : ∀ route, tables route ≠ some page := by
    intro route there
    apply (formed.shape.used route page there).2
    rw [supply]
    exact List.mem_cons_self
  have holds := leaves.holds formed.shape here distinct.isPage
    distinct.oldPage notPage tablesApart
  have newEntry : entryAt target addr = k2p page ||| pteUserData :=
    (holds.entryAt addr).trans (if_pos (agree_iff_pageOf.mpr rfl))
  have newPage : pageIn (entryAt target addr) = page := by
    rw [newEntry]
    exact follow_userData distinct.isPage
  have slot := slotOf_eq (holds_of_shape formed.shape) here
  have newSlot : slotOf target addr =
      some (entryAddress table (part addr 3)) :=
    slotOf_eq holds here
  rcases leaves.counts distinct with ⟨once, released, queued⟩
  constructor
  · intro copies
    by_cases several :
        space.refpage (pageIndex (pageIn (entryAt space addr))) = 1
    · right
      have first := copies.content 0 (by decide)
      rw [newPage, leaves.copied 0 (by decide), if_pos ⟨several, rfl⟩]
        at first
      rw [first]
      exact congrArg space.table.memory (BitVec.add_zero _).symm
    · exact Or.inl several
  · intro kept
    constructor
    · rw [newEntry]
      exact and_or_ne_zero _ (by decide)
    · rw [newEntry]
      exact and_or_ne_zero _ (by decide)
    · rw [newEntry]
      exact or_userData_writable distinct.isPage
    · intro offset inside
      rw [newPage]
      exact (leaves.bytes distinct kept inside).1
    · rw [newPage]
      exact once
    · intro other isSlot elsewhere mapped
      have different : other ≠ entryAddress table (part addr 3) := by
        rintro rfl
        exact elsewhere newSlot
      rw [leaves.slot distinct isSlot different] at mapped ⊢
      rw [newPage]
      rintro rfl
      apply formed.taken other isSlot mapped
      rw [supply]
      exact List.mem_cons_self
    · exact released
    · exact queued
    · intro other isSlot elsewhere
      apply leaves.slot distinct isSlot
      rintro rfl
      exact elsewhere slot
    · intro offset inside
      exact (leaves.bytes distinct kept inside).2

variable (device addr iss) in
/--
A write to a read-only page is resolved with a faithful copy exactly if a page
can be taken and the old page is still referenced, or has the link already.
-/
theorem copies_iff
    (formed : Formed space tables values slots)
    (valid : entryAt space addr &&& pteValid ≠ 0)
    (readOnly : entryAt space addr &&& pteRo ≠ 0) :
    (∃ target,
      pgfaultHandler device space addr iss = .ok (iss, target) ∧
        Copies slots space addr target) ↔
      Copyable space addr := by
  rcases formed.slot valid with ⟨table, here, member, -, entry⟩
  have same : pgfaultHandler device space addr iss =
      copyOnWrite space iss (entryAddress table (part addr 3)) := by
    apply pgfaultHandler_eq formed here
    · rw [entry]
      exact valid
    · rw [entry]
      exact readOnly
  rw [same]
  by_cases left : leftPageCnt space ≤ 1024
  · constructor
    · rintro ⟨target, result, -⟩
      exact absurd result (copyOnWrite_stops (Or.inl left))
    · intro copyable
      exact absurd copyable.left (not_lt.mpr left)
  · cases supply : space.table.supply with
    | nil =>
        constructor
        · rintro ⟨target, result, -⟩
          exact absurd result (copyOnWrite_stops (Or.inr supply))
        · intro copyable
          exact absurd supply copyable.offered
    | cons page rest =>
        have distinct := formed.distinct supply member
          (show space.table.memory _ &&& pteValid ≠ 0 by
            rw [entry]
            exact valid)
        rcases copyOnWrite_leaves iss (not_le.mp left) supply
            (congrArg pageIn entry) (isPage_pteAddress _) distinct.isPage
            (entry ▸ distinct.different) (entry ▸ distinct.inside)
            (distinct.notPage _ member)
            (entry ▸ distinct.notOld _ member) with
          ⟨target, result, leaves⟩
        have faithful := leaves.faithful_iff formed here entry valid supply
        constructor
        · rintro ⟨other, again, copies⟩
          rw [result] at again
          cases again
          refine ⟨not_le.mp left, ?_, ?_⟩
          · rw [supply]
            exact List.cons_ne_nil page rest
          · rw [supply]
            exact faithful.mp copies
        · intro copyable
          have kept := copyable.kept
          rw [supply] at kept
          exact ⟨target, result, faithful.mpr kept⟩

end Handler

/-! ## A process with one read-only page -/

/-- The free pages behind 1 MiB. -/
def freePages : List Word :=
  (List.range 2048).map fun index =>
    p2k (0x100000 + 4096 * BitVec.ofNat 64 index)

theorem freePages_isPage :
    ∀ page ∈ freePages, IsPage page := by
  intro page member
  rcases List.mem_map.mp member with ⟨index, inside, rfl⟩
  refine ⟨_, rfl, ?_⟩
  have aligned :
      ∀ index ∈ List.range 2048,
        pteFlags (0x100000 + 4096 * BitVec.ofNat 64 index) = 0 := by
    decide +kernel
  exact aligned index inside

theorem toNat_freePage
    {index : Nat}
    (inside : index < 2048) :
    (p2k (0x100000 + 4096 * BitVec.ofNat 64 index)).toNat =
      0xFFFF000000100000 + 4096 * index := by
  unfold p2k kspaceMask
  rw [BitVec.toNat_add, BitVec.toNat_add, BitVec.toNat_mul,
    BitVec.toNat_ofNat]
  change ((0x100000 + 4096 * (index % 2 ^ 64) % 2 ^ 64) % 2 ^ 64 +
    0xFFFF000000000000) % 2 ^ 64 = _
  omega

theorem freePages_nodup : freePages.Nodup := by
  apply List.Nodup.map_on _ List.nodup_range
  intro first here second there same
  have equal := congrArg BitVec.toNat same
  rw [toNat_freePage (List.mem_range.mp here),
    toNat_freePage (List.mem_range.mp there)] at equal
  omega

/-- The read-only page, which is not one of them. -/
def sharedPage : Word := 0xFFFF000000060000

theorem sharedPage_not_free : sharedPage ∉ freePages := by
  intro member
  rcases List.mem_map.mp member with ⟨index, inside, same⟩
  have equal := congrArg BitVec.toNat same
  rw [toNat_freePage (List.mem_range.mp inside)] at equal
  change _ = 0xFFFF000000060000 at equal
  omega

def sharedEntry : Word := k2p sharedPage ||| pteUserData ||| pteRo

/-- The page is mapped at `0x400000`; all words of the memory are `0x55`. -/
def sharedTable : Option PageTable.State :=
  match initPgdir (fun _ => 0x55) freePages with
  | .error _ => none
  | .ok start =>
      match PageTable.getPte start 0x400000 true with
      | .ok (some pte, table) => some (table.store pte sharedEntry)
      | _ => none

/-- A process with this page, of which so many references are counted. -/
def sharedProcess (table : PageTable.State) (references : Int) : Space where
  table := table
  refpage := fun index =>
    if index = 0x60 then references
    else if 0x100 ≤ index ∧ index < 0x104 then 1
    else 0
  kallocPageCnt := 5
  pagenum := 2049
  sections := [⟨8, 0, 0, 1⟩]
  killed := false

theorem sharedTable_shape
    {table : PageTable.State}
    (made : sharedTable = some table) :
    ∃ tables,
      Shape table tables
          (fun va => if Agree 12 47 0x400000 va then sharedEntry else 0) ∧
        ∀ route page, tables route = some page → page ∈ freePages := by
  unfold sharedTable at made
  cases started : initPgdir (fun _ => 0x55) freePages with
  | error _ =>
      rw [started] at made
      cases made
  | ok start =>
      rw [started] at made
      dsimp only at made
      rcases shape_initPgdir freePages_isPage freePages_nodup started with
        ⟨root, rest, split, supply, shape⟩
      split at made
      · next pte middle called =>
          cases made
          rcases reaches_getPte shape called with
            ⟨found, after, reached, leads⟩
          cases found with
          | none => cases leads
          | some last =>
              cases leads
              refine ⟨after,
                reached.shape.write reached.leads.symm sharedEntry, ?_⟩
              intro route page there
              rcases reached.consumes.pages with ⟨taken, offered, isNew⟩
              rw [split]
              rcases (isNew page).mp ⟨route, there⟩ with
                ⟨other, before⟩ | new
              · rw [(onlyRoot_eq_some before).2]
                exact List.mem_cons_self
              · apply List.mem_cons_of_mem
                rw [← supply, offered]
                exact List.mem_append_left _ new
      · cases made

theorem sharedTable_made :
    ∃ table,
      sharedTable = some table ∧ table.supply = freePages.drop 4 := by
  have computed :
      sharedTable.map PageTable.State.supply = some (freePages.drop 4) := by
    decide +kernel
  exact Option.map_eq_some_iff.mp computed

/-- The pages which are left have no references. -/
theorem unused_freePages
    (table : PageTable.State)
    (references : Int) :
    ∀ page ∈ freePages.drop 4,
      (sharedProcess table references).refpage (pageIndex page) = 0 := by
  intro page member
  unfold freePages at member
  rw [← List.map_drop, List.range_eq_range', List.drop_range'] at member
  rcases List.mem_map.mp member with ⟨number, inside, rfl⟩
  rw [List.mem_range'_1] at inside
  have index :
      pageIndex (p2k (0x100000 + 4096 * BitVec.ofNat 64 number)) =
        0x100 + number := by
    unfold pageIndex
    rw [k2p_p2k, BitVec.toNat_add, BitVec.toNat_mul, BitVec.toNat_ofNat]
    unfold pageSize
    change (0x100000 + 4096 * (number % 2 ^ 64) % 2 ^ 64) % 2 ^ 64 /
      4096 = _
    omega
  rw [index]
  change (if 0x100 + number = 0x60 then references
    else if 0x100 ≤ 0x100 + number ∧ 0x100 + number < 0x104 then 1
    else 0) = 0
  rw [if_neg (by omega), if_neg (by omega)]

/-- The entries of the process itself -/
def ownSlots (tables : List Word → Option Word) : Set Word :=
  { slot |
    ∃ va table,
      tables (path va 3) = some table ∧
        slot = entryAddress table (part va 3) }

theorem sharedProcess_formed
    {table : PageTable.State}
    (made : sharedTable = some table)
    (supply : table.supply = freePages.drop 4)
    (references : Int) :
    ∃ tables,
      Formed (sharedProcess table references) tables
        (fun va => if Agree 12 47 0x400000 va then sharedEntry else 0)
        (ownSlots tables) := by
  rcases sharedTable_shape made with ⟨tables, shape, fromFree⟩
  have only :
      ∀ slot ∈ ownSlots tables, table.memory slot &&& pteValid ≠ 0 →
        pageIn (table.memory slot) = sharedPage := by
    rintro slot ⟨va, last, here, rfl⟩ valid
    rw [shape.leaf va last here] at valid ⊢
    split_ifs at valid ⊢ with agree
    · decide
    · exact absurd BitVec.zero_and valid
  have notTable : ∀ route, tables route ≠ some sharedPage := by
    intro route there
    exact sharedPage_not_free (fromFree route sharedPage there)
  refine ⟨tables, shape, List.cons_ne_nil _ _, ?_, ?_, ?_, ?_, ?_, ?_⟩
  · intro va last here
    exact ⟨va, last, here, rfl⟩
  · change ∀ page ∈ table.supply, _
    rw [supply]
    exact unused_freePages table references
  · rintro page free slot ⟨va, last, here, rfl⟩ within
    have isTable := shape.used _ _ here
    apply isTable.2
    rw [← (inPage_entryAddress (shape.pages page free) isTable.1
      (part_lt va 3)).mp within]
    exact free
  · intro slot member valid
    change pageIndex (pageIn (table.memory slot)) < _
    rw [only slot member valid]
    decide
  · intro slot member valid
    change pageIn (table.memory slot) ∉ table.supply
    rw [only slot member valid, supply]
    intro free
    exact sharedPage_not_free (List.mem_of_mem_drop free)
  · intro slot member valid
    change (∀ other ∈ _, ¬ InPage (pageIn (table.memory slot)) other) ∧
      ∀ route, tables route ≠ some (pageIn (table.memory slot))
    rw [only slot member valid]
    refine ⟨?_, notTable⟩
    rintro other ⟨va, last, here, rfl⟩ within
    apply notTable (path va 3)
    rw [here, ← (inPage_entryAddress ⟨0x60000, by decide, by decide⟩
      (shape.used _ _ here).1 (part_lt va 3)).mp within]

theorem entryAt_sharedProcess
    {table : PageTable.State}
    {tables : List Word → Option Word}
    {slots : Set Word}
    {references : Int}
    (formed :
      Formed (sharedProcess table references) tables
        (fun va => if Agree 12 47 0x400000 va then sharedEntry else 0)
        slots) :
    entryAt (sharedProcess table references) 0x400123 = sharedEntry := by
  rw [(holds_of_shape formed.shape).entryAt]
  exact if_pos (by decide)

/-- The page has another reference. -/
theorem copies_shared :
    ∃ table slots,
      entryAt (sharedProcess table 2) 0x400123 = sharedEntry ∧
        ∃ target,
          pgfaultHandler zeroDevice (sharedProcess table 2) 0x400123 0x46 =
              .ok (0x46, target) ∧
            Copies slots (sharedProcess table 2) 0x400123 target := by
  rcases sharedTable_made with ⟨table, made, supply⟩
  rcases sharedProcess_formed made supply 2 with ⟨tables, formed⟩
  have entry := entryAt_sharedProcess formed
  refine ⟨table, ownSlots tables, entry, ?_⟩
  apply (copies_iff zeroDevice 0x400123 0x46 formed
    (by rw [entry]; decide) (by rw [entry]; decide)).mpr
  refine ⟨?_, ?_, Or.inl ?_⟩
  · change (1024 : Int) < (2049 - 5) % 2 ^ 64
    decide
  · change table.supply ≠ []
    rw [supply]
    decide +kernel
  · rw [entry]
    have index : pageIndex (pageIn sharedEntry) = 0x60 := by
      decide +kernel
    rw [index]
    change (2 : Int) ≠ 1
    decide

/-- The last process to write gets the address of a free page as first word. -/
theorem last_copy_has_link :
    ∃ table tables,
      Formed (sharedProcess table 1) tables
          (fun va => if Agree 12 47 0x400000 va then sharedEntry else 0)
          (ownSlots tables) ∧
        entryAt (sharedProcess table 1) 0x400123 = sharedEntry ∧
        table.memory sharedPage = 0x55 ∧
        (∃ target,
          pgfaultHandler zeroDevice (sharedProcess table 1) 0x400123 0x46 =
              .ok (0x46, target) ∧
            pageIn (entryAt target 0x400123) = 0xFFFF000000104000 ∧
            target.table.memory 0xFFFF000000104000 =
              0xFFFF000000105000) ∧
        ¬ ∃ target,
          pgfaultHandler zeroDevice (sharedProcess table 1) 0x400123 0x46 =
              .ok (0x46, target) ∧
            Copies (ownSlots tables) (sharedProcess table 1) 0x400123
              target := by
  have computed :
      (sharedTable.bind fun table =>
        (pgfaultHandler zeroDevice (sharedProcess table 1) 0x400123
          0x46).toOption.map fun returned =>
            (returned.1, table.memory sharedPage,
              pageIn (entryAt returned.2 0x400123),
              returned.2.table.memory 0xFFFF000000104000)) =
        some (0x46, 0x55, 0xFFFF000000104000, 0xFFFF000000105000) := by
    decide +kernel
  rcases Option.bind_eq_some_iff.mp computed with ⟨table, made, handled⟩
  rcases sharedTable_made with ⟨again, same, supply⟩
  rw [made] at same
  cases same
  rcases sharedProcess_formed made supply 1 with ⟨tables, formed⟩
  have entry := entryAt_sharedProcess formed
  cases result : pgfaultHandler zeroDevice (sharedProcess table 1) 0x400123
      0x46 with
  | error _ =>
      rw [result] at handled
      cases handled
  | ok returned =>
      rcases returned with ⟨iss, target⟩
      rw [result] at handled
      have equal := Option.some.inj handled
      rw [Prod.mk.injEq, Prod.mk.injEq, Prod.mk.injEq] at equal
      rcases equal with ⟨rfl, first, newPage, link⟩
      refine ⟨table, tables, formed, entry, first,
        ⟨target, result, newPage, link⟩, ?_⟩
      rintro ⟨other, same, copies⟩
      rw [result] at same
      cases same
      have copied := copies.content 0 (by decide)
      have shared : pageIn sharedEntry = sharedPage := by decide
      rw [newPage, entry, shared] at copied
      have equal := link.symm.trans (copied.trans first)
      revert equal
      decide

end FudanOS.Kernel.CopyOnWrite
