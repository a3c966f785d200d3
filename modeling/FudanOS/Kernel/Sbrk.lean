import FudanOS.Kernel.Paging

/-!
# The end of the heap

What `sbrk` does to the page table, to the counts of the pages and to the
section of the heap.  The new end is not checked, and `get_pte` drops the bits
above 47 of an address, so a request which leaves the range of the heap frees
pages of others.
-/

namespace FudanOS.Kernel.Sbrk

open FudanOS.Aarch64.Mmu
open FudanOS.Library.BitFields
open FudanOS.Library.Runs
open FudanOS.Kernel.PageTable
open FudanOS.Kernel.Paging

/-! ## What the callers may expect -/

/-- The counters of the pages, and the queue of those which are free. -/
structure Counters where
  refpage : Nat → Int
  kallocPageCnt : Int
  queue : List Word

def counters (space : Space) : Counters :=
  ⟨space.refpage, space.kallocPageCnt, space.table.supply⟩

/-- One reference to a page is given back. -/
def Counters.release (before : Counters) (page : Word) : Counters :=
  let count := before.refpage (pageIndex page) - 1
  let refpage := Function.update before.refpage (pageIndex page) count
  if count = 0 then
    ⟨refpage, before.kallocPageCnt - 1, page :: before.queue⟩
  else
    { before with refpage := refpage }

/-- The page which an entry points to. -/
def frame (entry : Word) : Word :=
  p2k (entry &&& -4096)

/-- The pages from an address to another one which have an entry. -/
def heapPages (first last : Nat) : List Nat :=
  (List.range' (first / 4096) (last / 4096 - first / 4096)).filter
    fun number => decide (number < 2 ^ 36)

/-- The end which is asked for. -/
def newEnd (sec : Section) (size : Word) : Int :=
  sec.end_.toNat + size.toInt * 4096

/-- The new end is neither below the start of the heap nor too large. -/
def InRange (sec : Section) (size : Word) : Prop :=
  sec.begin.toNat ≤ newEnd sec size ∧ newEnd sec size < 2 ^ 64

/-- The end of the heap has moved, and the pages behind it are free. -/
structure Moves
    (space : Space)
    (sec : Section)
    (rest : List Section)
    (last : Nat)
    (ans : Word)
    (target : Space) : Prop where
  returns : ans = sec.end_
  sections :
    target.sections = { sec with end_ := BitVec.ofNat 64 last } :: rest
  entries :
    ∀ number < 2 ^ 36,
      entryAt target (pageAddress number) =
        if last ≤ number * 4096 ∧ number * 4096 < sec.end_.toNat then
          0
        else
          entryAt space (pageAddress number)
  /-- Each page which was mapped is given to `kfree_page` once. -/
  pages :
    counters target =
      ((((heapPages last sec.end_.toNat).map fun number =>
        entryAt space (pageAddress number)).filter (· ≠ 0)).map
          frame).foldl Counters.release (counters space)

/-- The request is met, or refused if it is out of range. -/
def TouchesHeap (space : Space) (sec : Section) (rest : List Section)
    (size : Word) : Prop :=
  match sbrk space size with
  | .error _ => False
  | .ok (ans, target) =>
      (InRange sec size →
        Moves space sec rest (newEnd sec size).toNat ans target) ∧
        (¬ InRange sec size → target = space)

/-- A process: the page table holds values, and points to pages. -/
structure Formed
    (space : Space)
    (tables : List Word → Option Word)
    (values : Word → Word) : Prop where
  holds : Holds space.table tables values
  framed :
    ∀ va, values va ≠ 0 → pageIndex (frame (values va)) < Pages.physPages

/-- A process whose page table was made by calls and writes is formed. -/
theorem formed_of_run
    {memory : Word → Word}
    {supply : List Word}
    {start : PageTable.State}
    {labels : List PageTable.Label}
    {finish : PageTable.System}
    {space : Space}
    (pages : ∀ page ∈ supply, IsPage page)
    (nodup : supply.Nodup)
    (made : initPgdir memory supply = .ok start)
    (run :
      Run (Takes PageTable.step) PageTable.Allowed
        { state := start, returned := [] } labels finish)
    (table : space.table = finish.state)
    (framed :
      ∀ va, written labels va ≠ 0 →
        pageIndex (frame (written labels va)) < Pages.physPages) :
    ∃ tables, Formed space tables (written labels) := by
  rcases invariant_of_run pages nodup made run with ⟨tables, invariant⟩
  refine ⟨tables, ⟨finish.state.supply, ?_⟩, framed⟩
  rw [table]
  exact invariant.shape

/-! ## The loop -/

/-- The entry of an address is zeroed. -/
def clear (values : Word → Word) (va : Word) : Word → Word :=
  fun other => if Agree 12 47 va other then 0 else values other

/-- The entries which the loop finds, in their order. -/
def hits : Nat → Word → (Word → Word) → List Word
  | 0, _, _ => []
  | left + 1, va, values =>
      let later := hits left (va + 4096) (clear values va)
      if values va = 0 then later else values va :: later

/-- The values after the loop. -/
def cleared : Nat → Word → (Word → Word) → Word → Word
  | 0, _, values => values
  | left + 1, va, values => cleared left (va + 4096) (clear values va)

section Loop

variable
    {space : Space}
    {tables : List Word → Option Word}
    {values : Word → Word}
    {va other : Word}

theorem getPte_without_alloc
    {pte : Option Word}
    (called :
      PageTable.getPte space.table va false = .ok (pte, space.table)) :
    getPte space va false = .ok (pte, space) := by
  unfold Paging.getPte
  rw [called]
  dsimp only
  rw [Nat.sub_self, List.take_zero]
  rfl

variable (space) in
/-- `kfree_page` of a page of the physical memory. -/
theorem kfreePage_eq
    {page : Word}
    (inside : pageIndex page < Pages.physPages) :
    ∃ target,
      kfreePage space page = .ok target ∧
        counters target = (counters space).release page ∧
        target.sections = space.sections ∧
        target.killed = space.killed ∧
        target.pagenum = space.pagenum ∧
        target.table.memory = space.table.memory ∧
        target.table.pt = space.table.pt := by
  unfold kfreePage
  rw [if_neg (Nat.not_le.mpr inside)]
  dsimp only
  by_cases last : space.refpage (pageIndex page) - 1 = 0
  · rw [if_pos (by rw [Function.update_self]; exact last)]
    refine ⟨_, rfl, ?_, rfl, rfl, rfl, rfl, rfl⟩
    unfold Counters.release counters
    dsimp only
    rw [if_pos last]
  · rw [if_neg (by rw [Function.update_self]; exact last)]
    refine ⟨_, rfl, ?_, rfl, rfl, rfl, rfl, rfl⟩
    unfold Counters.release counters
    dsimp only
    rw [if_neg last]

/-- What an iteration of the loop leaves. -/
structure Frees
    (space : Space)
    (tables : List Word → Option Word)
    (values : Word → Word)
    (found : List Word)
    (target : Space) : Prop where
  formed : Formed target tables values
  sections : target.sections = space.sections
  counters :
    counters target =
      (found.map frame).foldl Counters.release (counters space)

theorem Formed.clear
    (framed :
      ∀ va, values va ≠ 0 →
        pageIndex (frame (values va)) < Pages.physPages)
    (va : Word) :
    ∀ other, Sbrk.clear values va other ≠ 0 →
      pageIndex (frame (Sbrk.clear values va other)) <
        Pages.physPages := by
  intro other some
  unfold Sbrk.clear at some ⊢
  by_cases agree : Agree 12 47 va other
  · rw [if_pos agree] at some
    exact absurd rfl some
  · rw [if_neg agree] at some ⊢
    exact framed other some

theorem freeEntry_entry
    {pte : Word}
    (called : getPte space va false = .ok (some pte, space)) :
    freeEntry space va =
      if space.table.memory pte = 0 then
        .ok space
      else
        (kfreePage space (frame (space.table.memory pte))).map fun freed =>
          freed.store pte 0 := by
  unfold freeEntry
  rw [called]
  change (if space.table.memory pte = 0 then _ else _) = _
  by_cases empty : space.table.memory pte = 0
  · rw [if_pos empty, if_pos empty]
    rfl
  · rw [if_neg empty, if_neg empty]
    unfold frame
    cases kfreePage space (p2k (space.table.memory pte &&& -4096)) with
    | error halt => rfl
    | ok freed => rfl

theorem freeEntry_frees
    (formed : Formed space tables values)
    (va : Word) :
    ∃ target,
      freeEntry space va = .ok target ∧
        Frees space tables (clear values va)
          (if values va = 0 then [] else [values va]) target := by
  have nothingThere :
      values va = 0 →
        Frees space tables (clear values va)
          (if values va = 0 then [] else [values va]) space := by
    intro empty
    have same : clear values va = values := by
      funext other
      unfold clear
      by_cases agree : Agree 12 47 va other
      · rw [if_pos agree, ← formed.holds.congr agree, empty]
      · rw [if_neg agree]
    rw [if_pos empty, same]
    exact ⟨formed, rfl, rfl⟩
  cases formed.holds.finds va with
  | nothing called value _ =>
      unfold freeEntry
      rw [getPte_without_alloc called]
      exact ⟨space, rfl, nothingThere value⟩
  | entry table here called value =>
      rw [freeEntry_entry (getPte_without_alloc called), value]
      by_cases empty : values va = 0
      · rw [if_pos empty (α := Except Halt Space)]
        exact ⟨space, rfl, nothingThere empty⟩
      · rcases kfreePage_eq space (formed.framed va empty) with
          ⟨freed, released, counts, sections, -, -, memory, pt⟩
        refine ⟨freed.store (entryAddress table (part va 3)) 0, ?_, ?_,
          sections, ?_⟩
        · rw [if_neg empty, released]
          rfl
        · refine ⟨?_, Formed.clear formed.framed va⟩
          have still : Holds freed.table tables values := by
            rcases formed.holds with ⟨supply, shape⟩
            refine ⟨supply, ?_⟩
            have same :
                ({ freed.table with supply := supply } :
                  PageTable.State) =
                  { space.table with supply := supply } := by
              dsimp only
              rw [memory, pt]
            rw [same]
            exact shape
          exact still.write here 0
        · rw [if_neg empty]
          exact counts

theorem Frees.append
    {middle target : Space}
    {after : Word → Word}
    {first second : List Word}
    (front : Frees space tables values first middle)
    (back : Frees middle tables after second target) :
    Frees space tables after (first ++ second) target := by
  refine ⟨back.formed, back.sections.trans front.sections, ?_⟩
  rw [back.counters, front.counters, List.map_append, List.foldl_append]

/-- The loop frees what it finds. -/
theorem freeEntries_frees
    (formed : Formed space tables values)
    (left : Nat)
    (va : Word) :
    ∃ target,
      freeEntries left va space = .ok target ∧
        Frees space tables (cleared left va values) (hits left va values)
          target := by
  induction left generalizing space values va with
  | zero => exact ⟨space, rfl, formed, rfl, rfl⟩
  | succ left ih =>
      rcases freeEntry_frees formed va with ⟨middle, first, front⟩
      rcases ih front.formed (va + 4096) with ⟨target, rest, back⟩
      refine ⟨target, ?_, ?_⟩
      · unfold freeEntries
        rw [first]
        exact rest
      · have whole := front.append back
        unfold hits cleared
        dsimp only
        by_cases empty : values va = 0
        · rw [if_pos empty] at whole ⊢
          exact whole
        · rw [if_neg empty] at whole ⊢
          exact whole

theorem add_pages (va : Word) (count : Nat) :
    va + 4096 + BitVec.ofNat 64 (count * 4096) =
      va + BitVec.ofNat 64 ((count + 1) * 4096) := by
  apply BitVec.eq_of_toNat_eq
  rw [BitVec.toNat_add, BitVec.toNat_add, BitVec.toNat_add,
    BitVec.toNat_ofNat, BitVec.toNat_ofNat]
  change ((va.toNat + 4096) % 2 ^ 64 + _) % 2 ^ 64 = _
  omega

/-- The entries of the pages which the loop visits are zero. -/
theorem cleared_eq
    (left : Nat)
    (va : Word)
    (values : Word → Word)
    (other : Word) :
    cleared left va values other =
      if ∃ count < left,
          pageOf (va + BitVec.ofNat 64 (count * 4096)) = pageOf other then
        0
      else
        values other := by
  induction left generalizing va values with
  | zero =>
      rw [if_neg (by rintro ⟨count, below, -⟩; omega)]
      rfl
  | succ left ih =>
      have first : va + BitVec.ofNat 64 (0 * 4096) = va := by
        rw [Nat.zero_mul]
        exact BitVec.add_zero va
      unfold cleared
      rw [ih]
      by_cases later :
          ∃ count < left,
            pageOf (va + 4096 + BitVec.ofNat 64 (count * 4096)) =
              pageOf other
      · rw [if_pos later, if_pos]
        rcases later with ⟨count, below, same⟩
        rw [add_pages] at same
        exact ⟨count + 1, Nat.succ_lt_succ below, same⟩
      · rw [if_neg later]
        unfold clear
        by_cases here : Agree 12 47 va other
        · rw [if_pos here, if_pos]
          refine ⟨0, Nat.succ_pos left, ?_⟩
          rw [first]
          exact agree_iff_pageOf.mp here
        · rw [if_neg here, if_neg]
          rintro ⟨count, below, same⟩
          cases count with
          | zero =>
              rw [first] at same
              exact here (agree_iff_pageOf.mpr same)
          | succ count =>
              rw [← add_pages] at same
              exact later ⟨count, Nat.lt_of_succ_lt_succ below, same⟩

theorem hits_succ (left : Nat) :
    hits (left + 1) va values =
      (if values va = 0 then [] else [values va]) ++
        hits left (va + 4096) (clear values va) := by
  change (if values va = 0 then _ else _) = _
  by_cases empty : values va = 0
  · rw [if_pos empty, if_pos empty, List.nil_append]
  · rw [if_neg empty, if_neg empty, List.singleton_append]

theorem heapPages_succ
    {first count : Nat}
    (aligned : 4096 ∣ first) :
    heapPages first (first + (count + 1) * 4096) =
      (if first / 4096 < 2 ^ 36 then [first / 4096] else []) ++
        heapPages (first + 4096) (first + 4096 + count * 4096) := by
  have whole :
      (first + (count + 1) * 4096) / 4096 - first / 4096 =
        count + 1 := by
    omega
  have less :
      (first + 4096 + count * 4096) / 4096 - (first + 4096) / 4096 =
        count := by
    omega
  have next : (first + 4096) / 4096 = first / 4096 + 1 := by omega
  unfold heapPages
  rw [whole, less, next, List.range'_succ, List.filter_cons]
  by_cases inside : first / 4096 < 2 ^ 36
  · rw [if_pos (decide_eq_true inside), if_pos inside]
    rfl
  · rw [if_neg (by simpa using inside), if_neg inside]
    rfl

/--
The loop finds the pages of the heap in their order, if what it finds beyond
is not below the address where it starts.
-/
theorem hits_eq
    {left : Nat}
    (aligned : 4096 ∣ va.toNat)
    (fits : va.toNat + left * 4096 < 2 ^ 64)
    (agrees :
      ∀ {va other}, Agree 12 47 va other → values va = values other)
    (only :
      ∀ count < left,
        values (va + BitVec.ofNat 64 (count * 4096)) ≠ 0 →
          va.toNat ≤
            pageOf (va + BitVec.ofNat 64 (count * 4096)) * 4096) :
    hits left va values =
      ((heapPages va.toNat (va.toNat + left * 4096)).map fun number =>
        values (pageAddress number)).filter (· ≠ 0) := by
  induction left generalizing va values with
  | zero =>
      unfold heapPages
      rw [Nat.zero_mul, Nat.add_zero, Nat.sub_self]
      rfl
  | succ left ih =>
      have next : (va + 4096).toNat = va.toNat + 4096 := by
        rw [BitVec.toNat_add]
        change (va.toNat + 4096) % 2 ^ 64 = _
        omega
      have later :
          hits left (va + 4096) (clear values va) =
            ((heapPages (va + 4096).toNat
              ((va + 4096).toNat + left * 4096)).map fun number =>
                clear values va (pageAddress number)).filter (· ≠ 0) :=
        ih (by omega) (by omega)
          (fun agree => by
            unfold clear
            simp only [← agree_iff_pageOf.mp agree, agree_iff_pageOf,
              agrees agree])
          (fun count below some => by
            unfold clear at some
            split at some
            · exact absurd rfl some
            case isFalse apart =>
              rw [add_pages] at some apart ⊢
              have above := only (count + 1) (Nat.succ_lt_succ below) some
              rw [agree_iff_pageOf] at apart
              have bound :=
                pageOf_lt (va + BitVec.ofNat 64 ((count + 1) * 4096))
              have here : pageOf va = va.toNat / 4096 := by
                unfold pageOf
                omega
              omega)
      rw [hits_succ, later, next, heapPages_succ aligned,
        List.map_append, List.filter_append]
      have here :
          va.toNat / 4096 < 2 ^ 36 →
            pageOf (pageAddress (va.toNat / 4096)) = pageOf va := by
        intro inside
        rw [pageOf_pageAddress inside]
        exact (Nat.mod_eq_of_lt inside).symm
      refine congrArg₂ (· ++ ·) ?_ ?_
      · have first : va + BitVec.ofNat 64 (0 * 4096) = va := by
          rw [Nat.zero_mul]
          exact BitVec.add_zero va
        have above := only 0 (Nat.succ_pos left)
        rw [first] at above
        by_cases inside : va.toNat / 4096 < 2 ^ 36
        · rw [if_pos inside, List.map_singleton,
            agrees (agree_iff_pageOf.mpr (here inside))]
          by_cases empty : values va = 0
          · rw [if_pos empty, empty]
            rfl
          · rw [if_neg empty, List.filter_singleton,
              decide_eq_true empty]
            rfl
        · have empty : values va = 0 := by
            by_contra some
            have bound := pageOf_lt va
            have least := above some
            omega
          rw [if_pos empty, if_neg inside]
          rfl
      · refine congrArg (List.filter fun value : Word => value ≠ 0) ?_
        apply List.map_congr_left
        intro number member
        have bounds := List.mem_filter.mp member
        have inside := of_decide_eq_true bounds.2
        rcases List.mem_range'.mp bounds.1 with ⟨index, -, position⟩
        unfold clear
        rw [if_neg]
        intro agree
        have same := agree_iff_pageOf.mp agree
        rw [pageOf_pageAddress inside] at same
        unfold pageOf at same
        omega

theorem freeEntries_nothing
    (formed : Formed space tables values)
    (empty : ∀ va, values va = 0)
    (left : Nat)
    (va : Word) :
    freeEntries left va space = .ok space := by
  induction left generalizing va with
  | zero => rfl
  | succ left ih =>
      have first : freeEntry space va = .ok space := by
        cases formed.holds.finds va with
        | nothing called value _ =>
            unfold freeEntry
            rw [getPte_without_alloc called]
            rfl
        | entry table here called value =>
            rw [freeEntry_entry (getPte_without_alloc called), value,
              if_pos (empty va) (α := Except Halt Space)]
      unfold freeEntries
      rw [first]
      exact ih (va + 4096)

end Loop

/-! ## The request -/

/-- The number of iterations. -/
def pagesFreed (size : Word) : Nat :=
  (-size).toInt.toNat

section Request

variable
    {space : Space}
    {tables : List Word → Option Word}
    {values : Word → Word}
    {sec : Section}
    {rest : List Section}
    {size : Word}

/-- The end of the section after `sec->end += size * PAGE_SIZE`. -/
def movedEnd (sec : Section) (size : Word) : Word :=
  sec.end_ + size * 4096

theorem movedEnd_eq :
    movedEnd sec size = BitVec.ofInt 64 (newEnd sec size) := by
  unfold movedEnd newEnd
  rw [BitVec.ofInt_add, BitVec.ofInt_mul, BitVec.ofInt_toInt]
  congr 1
  exact (BitVec.ofInt_natCast 64 sec.end_.toNat ▸
    (BitVec.ofNat_toNat 64 sec.end_).symm ▸ rfl)

theorem pagesFreed_eq :
    pagesFreed size =
      if size.toInt = -2 ^ 63 then 0 else (-size.toInt).toNat := by
  have lower := BitVec.le_toInt size
  have upper := BitVec.toInt_lt (x := size)
  unfold pagesFreed
  rw [BitVec.toInt_neg]
  by_cases least : size.toInt = -2 ^ 63
  · rw [if_pos least, least]
    decide
  · rw [if_neg least, Int.bmod_eq_of_le_mul_two (by omega) (by omega)]

theorem sbrk_eq
    (heap : space.sections = sec :: rest) :
    sbrk space size =
      (freeEntries (pagesFreed size) (movedEnd sec size)
        { space with
          sections := { sec with end_ := movedEnd sec size } :: rest }).map
        fun target => (sec.end_, target) := by
  unfold sbrk
  rw [heap]
  dsimp only
  by_cases shrinks : size.toInt < 0
  · rw [if_pos shrinks]
    rfl
  · rw [if_neg shrinks]
    have nothing : pagesFreed size = 0 := by
      rw [pagesFreed_eq]
      split
      · rfl
      · omega
    rw [nothing]
    rfl

variable (size) in
theorem sbrk_frees
    (formed : Formed space tables values)
    (heap : space.sections = sec :: rest) :
    ∃ target,
      sbrk space size = .ok (sec.end_, target) ∧
        target.sections =
          { sec with end_ := movedEnd sec size } :: rest ∧
        Frees
          { space with
            sections := { sec with end_ := movedEnd sec size } :: rest }
          tables
          (cleared (pagesFreed size) (movedEnd sec size) values)
          (hits (pagesFreed size) (movedEnd sec size) values)
          target := by
  have moved :
      Formed
        { space with
          sections := { sec with end_ := movedEnd sec size } :: rest }
        tables values :=
    ⟨formed.holds, formed.framed⟩
  rcases freeEntries_frees moved (pagesFreed size) (movedEnd sec size) with
    ⟨target, freed, frees⟩
  refine ⟨target, ?_, frees.sections, frees⟩
  rw [sbrk_eq heap, freed]
  rfl

theorem inRange_facts
    (range : InRange sec size) :
    (movedEnd sec size).toNat = (newEnd sec size).toNat ∧
      ((newEnd sec size).toNat + pagesFreed size * 4096 = sec.end_.toNat ∨
        (pagesFreed size = 0 ∧
          sec.end_.toNat ≤ (newEnd sec size).toNat)) := by
  rcases range with ⟨above, below⟩
  have bound := sec.end_.isLt
  constructor
  · rw [movedEnd_eq, BitVec.toNat_ofInt]
    rw [Int.emod_eq_of_lt (by omega) (by exact_mod_cast below)]
  · rw [pagesFreed_eq]
    unfold newEnd at above below ⊢
    split
    case isTrue least => omega
    case isFalse other => omega

/-- A visited page is below the old end. -/
theorem visited_lt
    (range : InRange sec size)
    {count : Nat}
    (visited : count < pagesFreed size) :
    (movedEnd sec size + BitVec.ofNat 64 (count * 4096)).toNat =
        (newEnd sec size).toNat + count * 4096 ∧
      (newEnd sec size).toNat + count * 4096 + 4096 ≤
        sec.end_.toNat := by
  rcases inRange_facts range with ⟨start, place⟩
  have bound := sec.end_.isLt
  have inside :
      (newEnd sec size).toNat + count * 4096 + 4096 ≤
        sec.end_.toNat := by
    rcases place with reaches | ⟨none_, -⟩ <;> omega
  refine ⟨?_, inside⟩
  rw [BitVec.toNat_add, BitVec.toNat_ofNat, start]
  omega

/--
In the range of the heap: `get_pte` takes no page of the heap for a mapped
one below the new end.
-/
def SparesOthers (space : Space) (sec : Section) (size : Word) : Prop :=
  ∀ number : Nat,
    newEnd sec size ≤ number * 4096 →
      number * 4096 < sec.end_.toNat →
        entryAt space (pageAddress number) ≠ 0 →
          newEnd sec size ≤ pageOf (pageAddress number) * 4096

/-- The end comes round to where it was, and nothing is unmapped. -/
def ChangesNothing (space : Space) (size : Word) : Prop :=
  size.toInt % 2 ^ 52 = 0 ∧
    (0 ≤ size.toInt ∨ size.toInt = -2 ^ 63 ∨ ∀ va, entryAt space va = 0)

/-- The loop visits the pages from the new end to the old one. -/
theorem spares_iff
    (aligned : 4096 ∣ sec.end_.toNat)
    (range : InRange sec size) :
    SparesOthers space sec size ↔
      ∀ count < pagesFreed size,
        entryAt space
            (movedEnd sec size + BitVec.ofNat 64 (count * 4096)) ≠ 0 →
          newEnd sec size ≤
            pageOf
              (movedEnd sec size + BitVec.ofNat 64 (count * 4096)) *
                4096 := by
  rcases inRange_facts range with ⟨start, place⟩
  have positive : 0 ≤ newEnd sec size :=
    le_trans (Int.natCast_nonneg _) range.1
  have alignedEnd : 4096 ∣ (newEnd sec size).toNat := by
    unfold newEnd at positive ⊢
    omega
  have address :
      ∀ count,
        movedEnd sec size + BitVec.ofNat 64 (count * 4096) =
          pageAddress ((newEnd sec size).toNat / 4096 + count) := by
    intro count
    apply BitVec.eq_of_toNat_eq
    unfold pageAddress
    rw [BitVec.toNat_add, BitVec.toNat_ofNat, BitVec.toNat_ofNat, start]
    omega
  constructor
  · intro spares count visited
    have last := (visited_lt range visited).2
    rw [address]
    apply spares
    · omega
    · omega
  · intro spares number above below
    have visit :=
      spares (number - (newEnd sec size).toNat / 4096) (by omega)
    rw [address, Nat.add_sub_cancel' (by omega)] at visit
    exact visit

theorem moves_iff
    (formed : Formed space tables values)
    (aligned : 4096 ∣ sec.end_.toNat)
    (range : InRange sec size)
    {target : Space}
    (sections :
      target.sections = { sec with end_ := movedEnd sec size } :: rest)
    (frees :
      Frees
        { space with
          sections := { sec with end_ := movedEnd sec size } :: rest }
        tables
        (cleared (pagesFreed size) (movedEnd sec size) values)
        (hits (pagesFreed size) (movedEnd sec size) values)
        target) :
    Moves space sec rest (newEnd sec size).toNat sec.end_ target ↔
      SparesOthers space sec size := by
  rcases inRange_facts range with ⟨start, place⟩
  have positive : 0 ≤ newEnd sec size :=
    le_trans (Int.natCast_nonneg _) range.1
  have alignedEnd : 4096 ∣ (newEnd sec size).toNat := by
    unfold newEnd at positive ⊢
    omega
  have after :
      ∀ number < 2 ^ 36,
        entryAt target (pageAddress number) =
          if ∃ count < pagesFreed size,
              pageOf
                (movedEnd sec size + BitVec.ofNat 64 (count * 4096)) =
                number then
            0
          else
            values (pageAddress number) := by
    intro number below
    rw [frees.formed.holds.entryAt, cleared_eq, pageOf_pageAddress below]
  rw [spares_iff aligned range]
  constructor
  · intro moves count visited some
    have below := pageOf_lt
      (movedEnd sec size + BitVec.ofNat 64 (count * 4096))
    have zeroed := after _ below
    rw [if_pos ⟨count, visited, rfl⟩, moves.entries _ below] at zeroed
    by_contra under
    rw [if_neg (by omega), formed.holds.entryAt] at zeroed
    rw [formed.holds.entryAt] at some
    apply some
    rw [← zeroed]
    exact formed.holds.congr
      (agree_iff_pageOf.mpr (pageOf_pageAddress below).symm)
  · intro spares
    refine ⟨rfl, ?_, ?_, ?_⟩
    · rw [sections]
      congr 2
      apply BitVec.eq_of_toNat_eq
      rw [BitVec.toNat_ofNat, start]
      have bound := range.2
      omega
    · intro number below
      rw [after number below, formed.holds.entryAt]
      by_cases heap :
          (newEnd sec size).toNat ≤ number * 4096 ∧
            number * 4096 < sec.end_.toNat
      · rw [if_pos heap, if_pos]
        have visited :
            number - (newEnd sec size).toNat / 4096 <
              pagesFreed size := by
          omega
        refine ⟨_, visited, ?_⟩
        unfold pageOf
        rw [(visited_lt range visited).1]
        omega
      · rw [if_neg heap]
        split
        case isFalse => rfl
        case isTrue visit =>
          rcases visit with ⟨count, visited, same⟩
          by_contra some
          have agree :=
            agree_iff_pageOf.mpr
              (same.trans (pageOf_pageAddress below).symm)
          have above := spares count visited (by
            rw [formed.holds.entryAt, formed.holds.congr agree]
            exact fun empty => some empty.symm)
          have last := visited_lt range visited
          rw [same] at above
          unfold pageOf at same
          rw [last.1] at same
          omega
    · have found :
          hits (pagesFreed size) (movedEnd sec size) values =
            ((heapPages (newEnd sec size).toNat sec.end_.toNat).map
              fun number => entryAt space (pageAddress number)).filter
                (· ≠ 0) := by
        have same :
            (fun number => entryAt space (pageAddress number)) =
              fun number => values (pageAddress number) := by
          funext number
          exact formed.holds.entryAt _
        rw [same]
        rcases place with reaches | ⟨nothing, beyond⟩
        · rw [← reaches, ← start]
          apply hits_eq
          · rw [start]
            exact alignedEnd
          · rw [start, reaches]
            exact sec.end_.isLt
          · exact formed.holds.congr
          · intro count visited some
            rw [← formed.holds.entryAt] at some
            have above := spares count visited some
            rw [start]
            omega
        · have empty :
              sec.end_.toNat / 4096 - (newEnd sec size).toNat / 4096 =
                0 := by
            omega
          unfold heapPages
          rw [nothing, empty]
          rfl
      rw [frees.counters, found]
      rfl

/-- All pages are visited if the end comes round to where it was. -/
theorem page_visited
    (round : 2 ^ 36 ≤ pagesFreed size)
    (aligned : 4096 ∣ (movedEnd sec size).toNat)
    (va : Word) :
    ∃ count < pagesFreed size,
      pageOf (movedEnd sec size + BitVec.ofNat 64 (count * 4096)) =
        pageOf va := by
  have first := pageOf_lt (movedEnd sec size)
  refine
    ⟨(pageOf va + 2 ^ 36 - pageOf (movedEnd sec size)) % 2 ^ 36, ?_, ?_⟩
  · have below := Nat.mod_lt
      (pageOf va + 2 ^ 36 - pageOf (movedEnd sec size))
      (show 0 < 2 ^ 36 by decide)
    omega
  · unfold pageOf at first ⊢
    rw [BitVec.toNat_add, BitVec.toNat_ofNat]
    omega

theorem movedEnd_eq_end_iff :
    movedEnd sec size = sec.end_ ↔ size.toInt % 2 ^ 52 = 0 := by
  have whole : sec.end_ = BitVec.ofInt 64 sec.end_.toNat := by
    rw [BitVec.ofInt_natCast, BitVec.ofNat_toNat, BitVec.setWidth_eq]
  rw [movedEnd_eq, ← BitVec.toNat_inj, BitVec.toNat_ofInt]
  have bound := sec.end_.isLt
  unfold newEnd
  omega

theorem unchanged_iff
    (formed : Formed space tables values)
    (heap : space.sections = sec :: rest)
    (aligned : 4096 ∣ sec.end_.toNat)
    {target : Space}
    (called : sbrk space size = .ok (sec.end_, target))
    (sections :
      target.sections = { sec with end_ := movedEnd sec size } :: rest)
    (frees :
      Frees
        { space with
          sections := { sec with end_ := movedEnd sec size } :: rest }
        tables
        (cleared (pagesFreed size) (movedEnd sec size) values)
        (hits (pagesFreed size) (movedEnd sec size) values)
        target) :
    target = space ↔ ChangesNothing space size := by
  constructor
  · rintro rfl
    rw [heap] at sections
    injection sections with same
    have still := movedEnd_eq_end_iff.mp (congrArg Section.end_ same).symm
    refine ⟨still, ?_⟩
    by_contra other
    push Not at other
    rcases other with ⟨negative, least, va, some⟩
    apply some
    rw [frees.formed.holds.entryAt, cleared_eq, if_pos]
    apply page_visited
    · rw [pagesFreed_eq, if_neg least]
      omega
    · rw [movedEnd_eq_end_iff.mpr still]
      exact aligned
  · rintro ⟨still, quiet⟩
    have same :
        { space with
          sections := { sec with end_ := movedEnd sec size } :: rest } =
          space := by
      rw [movedEnd_eq_end_iff.mpr still, ← heap]
    rw [sbrk_eq heap, same] at called
    have nothing :
        freeEntries (pagesFreed size) (movedEnd sec size) space =
          .ok space := by
      by_cases none_ : pagesFreed size = 0
      · rw [none_]
        rfl
      · apply freeEntries_nothing formed
        intro va
        rw [pagesFreed_eq] at none_
        rcases quiet with grows | least | empty
        · split at none_ <;> omega
        · exact absurd (if_pos least) none_
        · rw [← formed.holds.entryAt]
          exact empty va
    rw [nothing] at called
    injection called with returned
    injection returned with _ unchanged
    exact unchanged.symm

end Request

/-- The page below `USERTOP` is requested and mapped. -/
def stackLabels : List PageTable.Label :=
  [.getPte 0xFFFFFFFFF000 true,
    .write 0xFFFFFFFFF000 0xFFFF000000103FF8
      (0x108000 ||| pteUserData)]

/-- The page table after `init_pgdir` and these calls. -/
def stackTable : Option PageTable.State :=
  match initPgdir (fun _ => 0x55) firstPages with
  | .error _ => none
  | .ok start =>
      (executeChecked PageTable.step
        (fun system label => decide (PageTable.Allowed system label))
        { state := start, returned := [] } stackLabels).map
          PageTable.System.state

/-- A process with this page only, whose heap is empty. -/
def stackProcess (table : PageTable.State) : Space where
  table := table
  refpage := fun index => if index = 0x108 then 1 else 0
  kallocPageCnt := 5
  pagenum := 4096
  sections := [⟨8, 0, 0, 1⟩]
  killed := false

theorem stackTable_run
    {table : PageTable.State}
    (made : stackTable = some table) :
    ∃ start finish,
      initPgdir (fun _ => 0x55) firstPages = .ok start ∧
        Run (Takes PageTable.step) PageTable.Allowed
          { state := start, returned := [] } stackLabels finish ∧
        finish.state = table := by
  unfold stackTable at made
  cases started : initPgdir (fun _ => 0x55) firstPages with
  | error _ =>
      rw [started] at made
      cases made
  | ok start =>
      rw [started] at made
      rcases Option.map_eq_some_iff.mp made with ⟨finish, executed, same⟩
      exact ⟨start, finish, rfl,
        Run.of_executeChecked (fun _ _ => of_decide_eq_true) executed, same⟩

theorem stackProcess_formed
    {table : PageTable.State}
    (made : stackTable = some table) :
    ∃ tables, Formed (stackProcess table) tables (written stackLabels) := by
  rcases stackTable_run made with ⟨start, finish, started, run, same⟩
  apply formed_of_run firstPages_isPage firstPages_nodup started run
    same.symm
  intro va some
  change (if Agree 12 47 0xFFFFFFFFF000 va then _ else 0) ≠ 0 at some
  change pageIndex (frame (if Agree 12 47 0xFFFFFFFFF000 va then _
    else 0)) < _
  by_cases agree : Agree 12 47 0xFFFFFFFFF000 va
  · rw [if_pos agree]
    decide
  · exact absurd (if_neg agree) some

theorem stackTable_made : ∃ table, stackTable = some table := by
  apply Option.isSome_iff_exists.mp
  decide +kernel

end FudanOS.Kernel.Sbrk
