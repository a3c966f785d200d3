import FudanOS.Kernel.PageFaults
import FudanOS.Kernel.TableTree
import Mathlib.Order.CompletePartialOrder

/-!
# Page directories are given back

`free_pt_pages` and `free_pgdir` of `kernel/pt.c`, with the calls of
`kfree_page` which they make.  They go through the tree of the tables and do
not follow the entries of the last level.
-/

namespace FudanOS.Kernel.FreePgdir

open FudanOS.Aarch64.Mmu
open FudanOS.Library.Runs
open FudanOS.Kernel.PageTable
open FudanOS.Kernel.Paging
open FudanOS.Kernel.TableTree
open FudanOS.Kernel.Sbrk (Counters counters kfreePage_eq)

/-! ## The functions -/

/-- A process, and the arguments of the calls of `kfree_page` so far. -/
structure Freed where
  space : Space
  calls : List Word

/-- A call of `kfree_page`. -/
def kfree (freed : Freed) (p : Word) : Except Halt Freed := do
  let space ← kfreePage freed.space p
  return ⟨space, freed.calls ++ [p]⟩

/--
`free_pt_pages(p, deep)`, where `levels` is 3 less `deep`.  The loop is over
the entries of the table.
-/
def freePtPages : Nat → Word → Freed → Except Halt Freed
  | 0, p, freed => kfree freed p
  | levels + 1, p, freed =>
      if p = 0 then
        kfree freed p
      else do
        let freed ←
          (List.range 512).foldlM
            (fun freed i => do
              let pointer := entryAddress p (BitVec.ofNat 64 i)
              let entry := freed.space.table.memory pointer
              if entry = 0 then
                return freed
              else
                let freed ←
                  freePtPages levels (p2k (pteAddress entry)) freed
                return { freed with space := freed.space.store pointer 0 })
            freed
        kfree freed p

/-- `free_pgdir`, with the calls of `kfree_page` -/
def freePgdir (space : Space) : Except Halt Freed :=
  match space.table.pt with
  | none => .ok ⟨space, []⟩
  | some pt => do
      let freed ← freePtPages 3 pt ⟨space, []⟩
      return { freed with
        space :=
          { freed.space with table := { freed.space.table with pt := none } } }

/-! ## The tree below a table -/

/-- The address is one of the entries of the tables below a route. -/
def EntryBelow (tables : List Word → Option Word) (base : List Word)
    (address : Word) : Prop :=
  ∃ route table index,
    base <:+ route ∧ tables route = some table ∧ index.toNat < 512 ∧
      address = entryAddress table index

/-- The page is one of the tables below a route. -/
def TableBelow (tables : List Word → Option Word) (base : List Word)
    (page : Word) : Prop :=
  ∃ route, base <:+ route ∧ tables route = some page

section Below

variable
    {state : State}
    {tables : List Word → Option Word}
    {values : Word → Word}
    {base other : List Word}
    {address table page index second : Word}

/-- Below two routes which share an entry there is a common table. -/
theorem common_route
    (shape : Shape state tables values)
    (here : EntryBelow tables base address)
    (there : EntryBelow tables other address) :
    ∃ route, base <:+ route ∧ other <:+ route := by
  rcases here with ⟨route, table, index, below, found, bound, rfl⟩
  rcases there with ⟨again, page, place, under, hit, limit, same⟩
  have equal := (entryAddress_inj (shape.used _ _ found).1
    (shape.used _ _ hit).1 bound limit same).1
  rw [← equal] at hit
  rw [shape.injective _ _ _ hit found] at under
  exact ⟨route, below, under⟩

/-- Different indices lead to different tables. -/
theorem index_eq_of_suffix
    {route : List Word}
    (first : index :: base <:+ route)
    (again : second :: base <:+ route) :
    index = second := by
  have same : index :: base = second :: base := by
    rcases List.suffix_or_suffix_of_suffix first again with shorter | longer
    · exact shorter.eq_of_length (by simp)
    · exact (longer.eq_of_length (by simp)).symm
  exact (List.cons.inj same).1

/-- No table lies below a missing one. -/
theorem none_below
    (shape : Shape state tables values)
    (absent : tables base = none)
    {route : List Word}
    (below : base <:+ route) :
    tables route = none := by
  rcases below with ⟨more, rfl⟩
  induction more with
  | nil => exact absent
  | cons index more ih => exact shape.closed _ _ ih

end Below

/-! ## What a part of the traversal leaves -/

/-- The pages are given back once each, and only some addresses change. -/
structure Gives
    (freed : Freed)
    (pages addresses : Set Word)
    (target : Freed) : Prop where
  calls :
    ∃ given,
      target.calls = freed.calls ++ given ∧ given.Nodup ∧
        (∀ page, page ∈ given ↔ page ∈ pages) ∧
        counters target.space =
          given.foldl Counters.release (counters freed.space)
  frame :
    ∀ address ∉ addresses,
      target.space.table.memory address =
        freed.space.table.memory address
  root : target.space.table.pt = freed.space.table.pt

namespace Gives

variable
    {freed middle target : Freed}
    {pages more addresses others : Set Word}

theorem nothing (freed : Freed) : Gives freed ∅ ∅ freed := by
  refine ⟨⟨[], (List.append_nil _).symm, List.nodup_nil, ?_, rfl⟩, ?_, rfl⟩
  · intro page
    simp
  · intro address _
    rfl

theorem trans
    (first : Gives freed pages addresses middle)
    (second : Gives middle more others target)
    (apart : Disjoint pages more) :
    Gives freed (pages ∪ more) (addresses ∪ others) target := by
  rcases first.calls with ⟨given, calls, nodup, isGiven, counted⟩
  rcases second.calls with ⟨last, again, distinct, isLast, count⟩
  refine ⟨⟨given ++ last, ?_, ?_, ?_, ?_⟩, ?_, second.root.trans first.root⟩
  · rw [again, calls, List.append_assoc]
  · apply List.nodup_append.mpr
    refine ⟨nodup, distinct, ?_⟩
    rintro page early other late rfl
    exact Set.disjoint_left.mp apart ((isGiven page).mp early)
      ((isLast page).mp late)
  · intro page
    rw [List.mem_append, isGiven, isLast]
    rfl
  · rw [count, counted, List.foldl_append]
  · intro address outside
    rw [second.frame address fun inside => outside (Or.inr inside),
      first.frame address fun inside => outside (Or.inl inside)]

theorem mono
    (gives : Gives freed pages addresses target)
    (wider : addresses ⊆ others) :
    Gives freed pages others target := by
  refine ⟨gives.calls, ?_, gives.root⟩
  intro address outside
  exact gives.frame address fun inside => outside (wider inside)

/-- An entry is zeroed. -/
theorem store
    (freed : Freed)
    (pointer : Word) :
    Gives freed ∅ {pointer}
      { freed with space := freed.space.store pointer 0 } := by
  refine ⟨⟨[], (List.append_nil _).symm, List.nodup_nil, ?_, rfl⟩, ?_, rfl⟩
  · intro page
    simp
  · intro address outside
    exact Function.update_of_ne outside _ _

end Gives

theorem kfree_gives
    {page : Word}
    (freed : Freed)
    (inside : pageIndex page < Pages.physPages) :
    ∃ target,
      kfree freed page = .ok target ∧ Gives freed {page} ∅ target := by
  rcases kfreePage_eq freed.space inside with
    ⟨space, released, counted, -, -, -, memory, root⟩
  refine ⟨⟨space, freed.calls ++ [page]⟩, ?_, ?_, ?_, root⟩
  · unfold kfree
    rw [released]
    rfl
  · refine ⟨[page], rfl, List.nodup_singleton page, ?_, counted⟩
    intro other
    rw [List.mem_singleton, Set.mem_singleton_iff]
  · intro address _
    exact congrFun memory address

/-! ## The traversal -/

section Traversal

variable
    {state : State}
    {tables : List Word → Option Word}
    {values : Word → Word}

/-- The routes of the tables are the paths of addresses. -/
def Routed (tables : List Word → Option Word) : Prop :=
  ∀ route, tables route ≠ none → ∃ va, ∃ level ≤ 3, route = path va level

/-- The tables below the entries of a table with these indices. -/
def Rows (tables : List Word → Option Word) (base : List Word)
    (indices : List Nat) : Set Word :=
  { page |
    ∃ i ∈ indices, TableBelow tables (BitVec.ofNat 64 i :: base) page }

/-- These entries, and those of the tables below them. -/
def RowEntries (tables : List Word → Option Word) (base : List Word)
    (table : Word) (indices : List Nat) : Set Word :=
  { address |
    ∃ i ∈ indices,
      address = entryAddress table (BitVec.ofNat 64 i) ∨
        EntryBelow tables (BitVec.ofNat 64 i :: base) address }

/-- What `free_pt_pages` leaves, at a depth. -/
def FreesBelow (state : State) (tables : List Word → Option Word)
    (levels : Nat) : Prop :=
  ∀ va depth table freed,
    depth + levels = 3 → tables (path va depth) = some table →
      (∀ address, EntryBelow tables (path va depth) address →
        freed.space.table.memory address = state.memory address) →
      ∃ target,
        freePtPages levels table freed = .ok target ∧
          Gives freed { page | TableBelow tables (path va depth) page }
            { address | EntryBelow tables (path va depth) address } target

theorem freesBelow_zero
    (routed : Routed tables)
    (framed :
      ∀ route table, tables route = some table →
        pageIndex table < Pages.physPages) :
    FreesBelow state tables 0 := by
  intro va depth table freed depthIs here _
  rcases kfree_gives freed (framed _ _ here) with ⟨target, called, gives⟩
  have only :
      ∀ page, TableBelow tables (path va depth) page ↔ page = table := by
    intro page
    constructor
    · rintro ⟨route, below, found⟩
      have there : tables route ≠ none := by
        rw [found]
        exact Option.some_ne_none page
      rcases routed route there with ⟨other, level, shallow, rfl⟩
      have same : path va depth = path other level :=
        below.eq_of_length_le (by
          rw [length_path, length_path]
          omega)
      rw [← same, here] at found
      exact (Option.some.inj found).symm
    · rintro rfl
      exact ⟨_, List.suffix_rfl, here⟩
  refine ⟨target, called, ?_⟩
  have same : { page | TableBelow tables (path va depth) page } =
      {table} := by
    ext page
    exact only page
  rw [same]
  exact gives.mono (Set.empty_subset _)

/-- One iteration of the loop of `free_pt_pages`. -/
def freeRow (levels : Nat) (p : Word) (freed : Freed) (i : Nat) :
    Except Halt Freed := do
  let pointer := entryAddress p (BitVec.ofNat 64 i)
  let entry := freed.space.table.memory pointer
  if entry = 0 then
    return freed
  else
    let freed ← freePtPages levels (p2k (pteAddress entry)) freed
    return { freed with space := freed.space.store pointer 0 }

theorem freePtPages_succ
    {levels : Nat}
    {p : Word}
    {freed : Freed}
    (some_ : p ≠ 0) :
    freePtPages (levels + 1) p freed =
      (List.range 512).foldlM (freeRow levels p) freed >>= fun freed =>
        kfree freed p := by
  unfold freePtPages
  rw [if_neg some_]
  rfl

theorem freeRow_gives
    (shape : Shape state tables values)
    {levels depth : Nat}
    (below : FreesBelow state tables levels)
    (depthIs : depth + (levels + 1) = 3)
    {va table : Word}
    {freed : Freed}
    {i : Nat}
    (inside : i < 512)
    (here : tables (path va depth) = some table)
    (agrees :
      ∀ address ∈ RowEntries tables (path va depth) table [i],
        freed.space.table.memory address = state.memory address) :
    ∃ target,
      freeRow levels table freed i = .ok target ∧
        Gives freed (Rows tables (path va depth) [i])
          (RowEntries tables (path va depth) table [i]) target := by
  have index : (BitVec.ofNat 64 i : Word).toNat < 512 := by
    rw [BitVec.toNat_ofNat]
    omega
  have entry :
      freed.space.table.memory (entryAddress table (BitVec.ofNat 64 i)) =
        encode (tables (BitVec.ofNat 64 i :: path va depth)) := by
    rw [agrees _ ⟨i, List.mem_singleton_self i, Or.inl rfl⟩]
    exact child shape (by omega) here index
  have rows :
      Rows tables (path va depth) [i] =
        { page |
          TableBelow tables (BitVec.ofNat 64 i :: path va depth) page } := by
    ext page
    simp [Rows]
  unfold freeRow
  dsimp only
  rw [entry]
  cases found : tables (BitVec.ofNat 64 i :: path va depth) with
  | none =>
      rw [if_pos (show encode none = 0 from rfl) (α := Except Halt Freed)]
      refine ⟨freed, rfl, ?_⟩
      have empty : Rows tables (path va depth) [i] = ∅ := by
        rw [rows]
        ext page
        constructor
        · rintro ⟨route, under, hit⟩
          rw [none_below shape found under] at hit
          cases hit
        · intro impossible
          cases impossible
      rw [empty]
      exact (Gives.nothing freed).mono (Set.empty_subset _)
  | some next =>
      have isNext := (shape.used _ _ found).1
      have nonzero : encode (some next) ≠ 0 := by
        intro zero
        have valid := (valid_encode (some next)).not.mpr
          (Option.some_ne_none next)
        apply valid
        rw [zero]
        rfl
      rcases exists_path va (show depth ≤ 3 by omega) index with
        ⟨other, route, last⟩
      have isRoute :
          path other (depth + 1) = BitVec.ofNat 64 i :: path va depth := by
        change part other depth :: path other depth = _
        rw [last, route]
      rw [if_neg nonzero]
      change ∃ target,
        (freePtPages levels (p2k (pteAddress (k2p next ||| pteTable)))
          freed >>= _) = _ ∧ _
      rw [follow isNext]
      rcases below other (depth + 1) next freed (by omega)
          (by rw [isRoute]; exact found)
          (by
            intro address under
            rw [isRoute] at under
            exact agrees address
              ⟨i, List.mem_singleton_self i, Or.inr under⟩) with
        ⟨middle, called, gives⟩
      rw [called]
      refine ⟨_, rfl, ?_⟩
      rw [isRoute, ← rows] at gives
      have whole := gives.trans
        (Gives.store middle (entryAddress table (BitVec.ofNat 64 i)))
        (Set.disjoint_empty _)
      rw [Set.union_empty] at whole
      apply whole.mono
      rintro address (under | rfl)
      · exact ⟨i, List.mem_singleton_self i, Or.inr under⟩
      · exact ⟨i, List.mem_singleton_self i, Or.inl rfl⟩

theorem ofNat_injective
    {first second : Nat}
    (below : first < 512)
    (again : second < 512)
    (same : (BitVec.ofNat 64 first : Word) = BitVec.ofNat 64 second) :
    first = second := by
  have numbers := congrArg BitVec.toNat same
  rw [BitVec.toNat_ofNat, BitVec.toNat_ofNat] at numbers
  omega

/-- Rows with different indices have no entry in common. -/
theorem rowEntries_apart
    (shape : Shape state tables values)
    {base : List Word}
    {table address : Word}
    {i j : Nat}
    (here : tables base = some table)
    (below : i < 512)
    (again : j < 512)
    (first : address ∈ RowEntries tables base table [i])
    (second : address ∈ RowEntries tables base table [j]) :
    i = j := by
  have isTable := (shape.used _ _ here).1
  have bound : ∀ {i : Nat}, i < 512 →
      (BitVec.ofNat 64 i : Word).toNat < 512 := by
    intro i small
    rw [BitVec.toNat_ofNat]
    omega
  have own : ∀ {i : Nat}, i < 512 →
      EntryBelow tables base (entryAddress table (BitVec.ofNat 64 i)) :=
    fun small => ⟨base, table, _, List.suffix_rfl, here, bound small, rfl⟩
  -- An entry of the table itself is not one of a table below it.
  have never :
      ∀ {i j : Nat}, i < 512 →
        ¬ EntryBelow tables (BitVec.ofNat 64 j :: base)
          (entryAddress table (BitVec.ofNat 64 i)) := by
    rintro i j small ⟨route, page, index, under, found, limit, same⟩
    have equal := (entryAddress_inj isTable (shape.used _ _ found).1
      (bound small) limit same).1
    rw [← equal] at found
    rw [shape.injective _ _ _ found here] at under
    have lengths := under.length_le
    rw [List.length_cons] at lengths
    omega
  rcases first with ⟨_, isFirst, first⟩
  rcases second with ⟨_, isSecond, second⟩
  cases List.mem_singleton.mp isFirst
  cases List.mem_singleton.mp isSecond
  rcases first with rfl | first
  · rcases second with same | second
    · exact ofNat_injective below again
        (entryAddress_inj isTable isTable (bound below) (bound again) same).2
    · exact absurd second (never below)
  · rcases second with rfl | second
    · exact absurd first (never again)
    · rcases common_route shape first second with ⟨route, one, two⟩
      exact ofNat_injective below again (index_eq_of_suffix one two)

theorem rows_cons
    (base : List Word)
    (i : Nat)
    (rest : List Nat) :
    Rows tables base (i :: rest) =
      Rows tables base [i] ∪ Rows tables base rest := by
  ext page
  simp [Rows]

theorem rowEntries_cons
    (base : List Word)
    (table : Word)
    (i : Nat)
    (rest : List Nat) :
    RowEntries tables base table (i :: rest) =
      RowEntries tables base table [i] ∪
        RowEntries tables base table rest := by
  ext address
  simp [RowEntries]

theorem freeRows_gives
    (shape : Shape state tables values)
    {levels depth : Nat}
    (below : FreesBelow state tables levels)
    (depthIs : depth + (levels + 1) = 3)
    {va table : Word}
    (here : tables (path va depth) = some table)
    (indices : List Nat)
    (inside : ∀ i ∈ indices, i < 512)
    (distinct : indices.Nodup)
    {freed : Freed}
    (agrees :
      ∀ address ∈ RowEntries tables (path va depth) table indices,
        freed.space.table.memory address = state.memory address) :
    ∃ target,
      indices.foldlM (freeRow levels table) freed = .ok target ∧
        Gives freed (Rows tables (path va depth) indices)
          (RowEntries tables (path va depth) table indices) target := by
  induction indices generalizing freed with
  | nil =>
      have empty : Rows tables (path va depth) [] = ∅ := by
        ext page
        simp [Rows]
      refine ⟨freed, rfl, ?_⟩
      rw [empty]
      exact (Gives.nothing freed).mono (Set.empty_subset _)
  | cons i rest ih =>
      rw [List.nodup_cons] at distinct
      have small := inside i List.mem_cons_self
      rw [rowEntries_cons] at agrees
      rcases freeRow_gives shape below depthIs small here
          (fun address first => agrees address (Or.inl first)) with
        ⟨middle, called, first⟩
      have later :
          ∀ address ∈ RowEntries tables (path va depth) table rest,
            middle.space.table.memory address = state.memory address := by
        intro address second
        rw [first.frame, agrees address (Or.inr second)]
        intro again
        rcases second with ⟨j, member, second⟩
        have same := rowEntries_apart shape here small
          (inside j (List.mem_cons_of_mem _ member)) again
          ⟨j, List.mem_singleton_self j, second⟩
        exact distinct.1 (same ▸ member)
      rcases ih (fun j member => inside j (List.mem_cons_of_mem _ member))
          distinct.2 later with
        ⟨target, others, second⟩
      refine ⟨target, ?_, ?_⟩
      · rw [List.foldlM_cons, called]
        exact others
      · rw [rows_cons, rowEntries_cons]
        apply first.trans second
        rw [Set.disjoint_left]
        rintro page ⟨_, isFirst, route, under, found⟩
          ⟨j, member, again, above, hit⟩
        cases List.mem_singleton.mp isFirst
        rw [shape.injective _ _ _ hit found] at above
        have same := ofNat_injective small
          (inside j (List.mem_cons_of_mem _ member))
          (index_eq_of_suffix under above)
        exact distinct.1 (same ▸ member)

/-- A page is never at the address 0. -/
theorem isPage_ne_zero
    {page : Word}
    (isPage : IsPage page) :
    page ≠ 0 := by
  rintro rfl
  rcases isPage with ⟨physical, zero, aligned⟩
  have same := k2p_p2k physical
  rw [← zero] at same
  rw [← same] at aligned
  revert aligned
  decide

/-- The tables below a table are the table and those of its rows. -/
theorem tableBelow_iff
    (routed : Routed tables)
    {base : List Word}
    {table page : Word}
    (here : tables base = some table) :
    TableBelow tables base page ↔
      page ∈ Rows tables base (List.range 512) ∪ {table} := by
  constructor
  · rintro ⟨route, under, found⟩
    rcases under with ⟨more, rfl⟩
    rcases List.eq_nil_or_concat more with rfl | ⟨start, index, rfl⟩
    · rw [List.nil_append, here] at found
      exact Or.inr (Option.some.inj found).symm
    · left
      have there : tables (start.concat index ++ base) ≠ none := by
        rw [found]
        exact Option.some_ne_none page
      rcases routed _ there with ⟨va, level, _, same⟩
      have member : index ∈ path va level := by
        rw [← same]
        simp
      have bound : index.toNat < 512 := by
        have all : ∀ level, ∀ index ∈ path va level, index.toNat < 512 := by
          intro level
          induction level with
          | zero =>
              intro index impossible
              cases impossible
          | succ level ih =>
              intro index inside
              rcases List.mem_cons.mp inside with rfl | later
              · exact part_lt va level
              · exact ih index later
        exact all level index member
      refine ⟨index.toNat, List.mem_range.mpr bound, _, ?_, found⟩
      rw [BitVec.ofNat_toNat, BitVec.setWidth_eq, List.concat_eq_append,
        List.append_assoc]
      exact List.suffix_append start _
  · rintro (⟨i, _, route, under, found⟩ | rfl)
    · exact ⟨route, (List.suffix_cons _ _).trans under, found⟩
    · exact ⟨base, List.suffix_rfl, here⟩

/-- The traversal of a table, from that of the tables below it. -/
theorem freesBelow_succ
    (shape : Shape state tables values)
    (routed : Routed tables)
    (framed :
      ∀ route table, tables route = some table →
        pageIndex table < Pages.physPages)
    {levels : Nat}
    (below : FreesBelow state tables levels) :
    FreesBelow state tables (levels + 1) := by
  intro va depth table freed depthIs here agrees
  have isTable := (shape.used _ _ here).1
  have inner :
      RowEntries tables (path va depth) table (List.range 512) ⊆
        { address | EntryBelow tables (path va depth) address } := by
    rintro address ⟨i, member, rfl | under⟩
    · refine ⟨_, table, _, List.suffix_rfl, here, ?_, rfl⟩
      rw [BitVec.toNat_ofNat]
      have small := List.mem_range.mp member
      omega
    · rcases under with ⟨route, page, index, above, found, bound, same⟩
      exact ⟨route, page, index, (List.suffix_cons _ _).trans above, found,
        bound, same⟩
  rcases freeRows_gives shape below depthIs here (List.range 512)
      (fun i member => List.mem_range.mp member) List.nodup_range
      (fun address inside => agrees address (inner inside)) with
    ⟨middle, rows, gives⟩
  rcases kfree_gives middle (framed _ _ here) with ⟨target, last, own⟩
  refine ⟨target, ?_, ?_⟩
  · rw [freePtPages_succ (isPage_ne_zero isTable), rows]
    exact last
  · have apart : Disjoint
        (Rows tables (path va depth) (List.range 512)) {table} := by
      rw [Set.disjoint_singleton_right]
      rintro ⟨i, _, route, under, found⟩
      rw [shape.injective _ _ _ found here] at under
      have lengths := under.length_le
      rw [List.length_cons] at lengths
      omega
    have whole := gives.trans own apart
    rw [Set.union_empty] at whole
    have same :
        { page | TableBelow tables (path va depth) page } =
          Rows tables (path va depth) (List.range 512) ∪ {table} := by
      ext page
      exact tableBelow_iff routed here
    rw [same]
    exact whole.mono inner

end Traversal

/-- The whole directory is given back. -/
theorem freePgdir_gives
    {space : Space}
    {tables : List Word → Option Word}
    {values : Word → Word}
    (shape : Shape space.table tables values)
    (routed : Routed tables)
    (framed :
      ∀ route table, tables route = some table →
        pageIndex table < Pages.physPages) :
    ∃ target,
      freePgdir space = .ok target ∧ target.space.table.pt = none ∧
        target.calls.Nodup ∧
        (∀ page,
          page ∈ target.calls ↔ ∃ route, tables route = some page) ∧
        counters target.space =
          target.calls.foldl Counters.release (counters space) := by
  have zero : FreesBelow space.table tables 0 :=
    freesBelow_zero routed framed
  have three := freesBelow_succ shape routed framed
    (freesBelow_succ shape routed framed
      (freesBelow_succ shape routed framed zero))
  rcases Option.ne_none_iff_exists'.mp shape.rooted with ⟨root, here⟩
  rcases three 0 0 root ⟨space, []⟩ rfl here (fun _ _ => rfl) with
    ⟨target, called, gives⟩
  rcases gives.calls with ⟨given, calls, nodup, isGiven, counted⟩
  rw [List.nil_append] at calls
  refine
    ⟨{ target with
        space :=
          { target.space with
            table := { target.space.table with pt := none } } },
      ?_, rfl, ?_, ?_, ?_⟩
  · unfold freePgdir
    rw [shape.root, here]
    change freePtPages 3 root ⟨space, []⟩ >>= _ = _
    rw [called]
    rfl
  · change target.calls.Nodup
    rw [calls]
    exact nodup
  · intro page
    change page ∈ target.calls ↔ _
    rw [calls, isGiven]
    constructor
    · rintro ⟨route, _, found⟩
      exact ⟨route, found⟩
    · rintro ⟨route, found⟩
      exact ⟨route, List.nil_suffix, found⟩
  · change counters target.space = target.calls.foldl _ _
    rw [calls]
    exact counted

/-! ## Directories which are built -/

/-- A process whose page directory is built, and the pages which were taken. -/
structure Directory where
  space : Space
  returned : List (Word × Word)
  /-- The pages of `init_pgdir` and `get_pte`. -/
  tables : List Word
  /-- Pages which `kalloc_page` has returned for other uses. -/
  users : List Word

/-- `init_pgdir`, without its section -/
def initPgdir (space : Space) : Except Halt Directory := do
  let (page, space) ← kallocPage space
  let table := space.table
  let memory := fun address =>
    if InPage page address then 0 else table.memory address
  return {
    space :=
      { space with
        table := { table with memory := memory, pt := some page } }
    returned := []
    tables := [page]
    users := [] }

inductive Label where
  | getPte (va : Word) (alloc : Bool)
  /-- A write through the pointer which a call with `va` returned. -/
  | write (va pointer value : Word)
  | kallocPage

def step (directory : Directory) : Label → Except Halt Directory
  | .getPte va alloc => do
      let (pointer, space) ← getPte directory.space va alloc
      let before := directory.space.table.supply
      let taken := before.take (before.length - space.table.supply.length)
      return { directory with
        space := space
        returned :=
          match pointer with
          | some pointer => (va, pointer) :: directory.returned
          | none => directory.returned
        tables := taken ++ directory.tables }
  | .write _ pointer value =>
      .ok { directory with space := directory.space.store pointer value }
  | .kallocPage => do
      let (page, space) ← kallocPage directory.space
      return { directory with
        space := space
        users := page :: directory.users }

def Allowed (directory : Directory) : Label → Prop
  | .getPte _ _ => True
  | .write va pointer _ => (va, pointer) ∈ directory.returned
  | .kallocPage => True

/-- The free pages are pages of the memory, each once and without a count. -/
structure FreePages (space : Space) : Prop where
  pages : ∀ page ∈ space.table.supply, IsPage page
  inside : ∀ page ∈ space.table.supply, pageIndex page < Pages.physPages
  nodup : space.table.supply.Nodup
  counts :
    ∀ page ∈ space.table.supply, space.refpage (pageIndex page) = 0

/-- What is taken is in the tables or in the pages for other uses. -/
structure Built (start : Space) (directory : Directory) : Prop where
  shape :
    ∃ tables values,
      Shape directory.space.table tables values ∧ Routed tables ∧
        (∀ va pointer, (va, pointer) ∈ directory.returned →
          ∃ table,
            tables (path va 3) = some table ∧
              pointer = entryAddress table (part va 3)) ∧
        ∀ page,
          (∃ route, tables route = some page) ↔ page ∈ directory.tables
  supply :
    (directory.tables ++ directory.users ++
      directory.space.table.supply).Perm start.table.supply
  cnt :
    directory.space.kallocPageCnt =
      start.kallocPageCnt + directory.tables.length +
        directory.users.length
  refpage :
    ∀ index,
      directory.space.refpage index =
        start.refpage index +
          ((directory.tables ++ directory.users).map pageIndex).count index

section Runs

variable
    {start space : Space}
    {directory target : Directory}

theorem built_initPgdir
    (free : FreePages start)
    (made : initPgdir start = .ok directory) :
    Built start directory := by
  unfold initPgdir kallocPage at made
  cases supply : start.table.supply with
  | nil =>
      rw [supply] at made
      cases made
  | cons page rest =>
      rw [supply] at made
      cases made
      have made : PageTable.initPgdir start.table.memory (page :: rest) =
          .ok
            { memory := fun address =>
                if InPage page address then 0
                else start.table.memory address
              supply := rest
              pt := some page } :=
        rfl
      rcases shape_initPgdir (supply ▸ free.pages) (supply ▸ free.nodup)
          made with ⟨first, others, split, -, shape⟩
      cases split
      refine ⟨⟨_, _, shape, ?_, ?_, ?_⟩, ?_, ?_, ?_⟩
      · intro route there
        rcases Option.ne_none_iff_exists'.mp there with ⟨table, found⟩
        exact ⟨0, 0, Nat.zero_le 3, (onlyRoot_eq_some found).1⟩
      · intro va pointer member
        exact absurd member List.not_mem_nil
      · intro other
        rw [List.mem_singleton]
        constructor
        · rintro ⟨route, found⟩
          exact (onlyRoot_eq_some found).2
        · rintro rfl
          exact ⟨[], rfl⟩
      · rw [supply]
        exact List.Perm.refl _
      · change start.kallocPageCnt + 1 = start.kallocPageCnt + 1 + 0
        omega
      · intro index
        change Function.update start.refpage (pageIndex page)
          (start.refpage (pageIndex page) + 1) index = _
        by_cases same : index = pageIndex page
        · rw [same, Function.update_self]
          simp
        · rw [Function.update_of_ne same]
          simp [Ne.symm same]

/-- What the counters are after pages were taken. -/
theorem foldl_count_refpage
    (pages : List Word)
    (space : Space)
    (index : Nat) :
    (pages.foldl Space.count space).refpage index =
      space.refpage index + (pages.map pageIndex).count index := by
  induction pages generalizing space with
  | nil => simp
  | cons page pages ih =>
      rw [List.foldl_cons, ih, List.map_cons, List.count_cons]
      change Function.update space.refpage (pageIndex page)
        (space.refpage (pageIndex page) + 1) index + _ = _
      by_cases same : index = pageIndex page
      · rw [same, Function.update_self]
        simp
        omega
      · rw [Function.update_of_ne same]
        simp [Ne.symm same]

/-- A page is taken for another use. -/
theorem shape_pop
    {state : State}
    {tables : List Word → Option Word}
    {values : Word → Word}
    {page : Word}
    {rest : List Word}
    (shape : Shape state tables values)
    (supply : state.supply = page :: rest) :
    Shape { state with supply := rest } tables values := by
  have nodup := shape.nodup
  rw [supply, List.nodup_cons] at nodup
  refine ⟨shape.root, shape.rooted, ?_, nodup.2, ?_, shape.injective,
    shape.closed, shape.inner, shape.leaf, shape.unwritten⟩
  · intro other member
    apply shape.pages
    rw [supply]
    exact List.mem_cons_of_mem _ member
  · intro route table found
    rcases shape.used route table found with ⟨isPage, unused⟩
    refine ⟨isPage, fun member => unused ?_⟩
    rw [supply]
    exact List.mem_cons_of_mem _ member

theorem Built.of_getPte
    (built : Built start directory)
    {va : Word}
    {alloc : Bool}
    (taken : step directory (.getPte va alloc) = .ok target) :
    Built start target := by
  rcases built with
    ⟨⟨tables, values, shape, routed, pointers, isTable⟩, supply, cnt,
      refpage⟩
  unfold step Paging.getPte at taken
  dsimp only at taken
  cases called : PageTable.getPte directory.space.table va alloc with
  | error _ =>
      rw [called] at taken
      cases taken
  | ok pair =>
      rcases pair with ⟨pointer, table⟩
      rw [called] at taken
      cases taken
      rcases reaches_getPte shape called with ⟨found, after, reached, leads⟩
      rcases reached.consumes with ⟨⟨pages, split, more⟩, routes⟩
      have isTaken :
          directory.space.table.supply.take
              (directory.space.table.supply.length -
                table.supply.length) = pages := by
        rw [split, List.length_append, Nat.add_sub_cancel,
          List.take_left]
      dsimp only
      rw [isTaken]
      refine ⟨⟨after, values, reached.shape, ?_, ?_, ?_⟩, ?_, ?_, ?_⟩
      · intro route there
        by_cases before : tables route = none
        · rcases routes route there before with ⟨level, shallow, same⟩
          exact ⟨va, level, shallow, same⟩
        · exact routed route before
      · intro other second member
        cases found with
        | none =>
            rw [leads] at member
            rcases pointers other second member with
              ⟨page, there, isEntry⟩
            exact ⟨page, reached.grows.kept _ _ there, isEntry⟩
        | some page =>
            rw [leads] at member
            rcases List.mem_cons.mp member with new | old
            · cases new
              exact ⟨page, reached.leads.symm, rfl⟩
            · rcases pointers other second old with ⟨last, there, isEntry⟩
              exact ⟨last, reached.grows.kept _ _ there, isEntry⟩
      · intro page
        rw [more, isTable, List.mem_append, or_comm]
      · rw [split] at supply
        refine List.Perm.trans ?_ supply
        rw [List.append_assoc, List.append_assoc, List.append_assoc]
        refine List.Perm.trans (List.perm_append_comm_assoc _ _ _) ?_
        apply List.Perm.append_left
        exact List.perm_append_comm_assoc _ _ _
      · change (pages.foldl Space.count directory.space).kallocPageCnt = _
        rw [(PageFaults.foldl_count pages directory.space).2.2.2, cnt,
          List.length_append]
        push_cast
        omega
      · intro index
        change (pages.foldl Space.count directory.space).refpage index = _
        rw [foldl_count_refpage, refpage]
        simp only [List.map_append, List.count_append]
        push_cast
        omega

theorem Built.of_kallocPage
    (built : Built start directory)
    (taken : step directory .kallocPage = .ok target) :
    Built start target := by
  rcases built with
    ⟨⟨tables, values, shape, routed, pointers, isTable⟩, supply, cnt,
      refpage⟩
  unfold step Paging.kallocPage at taken
  cases offered : directory.space.table.supply with
  | nil =>
      rw [offered] at taken
      cases taken
  | cons page rest =>
      rw [offered] at taken
      cases taken
      refine ⟨⟨tables, values, shape_pop shape offered, routed, pointers,
        isTable⟩, ?_, ?_, ?_⟩
      · rw [offered] at supply
        refine List.Perm.trans ?_ supply
        rw [List.append_assoc, List.append_assoc]
        apply List.Perm.append_left
        exact List.perm_middle.symm
      · change directory.space.kallocPageCnt + 1 = _
        rw [cnt, List.length_cons]
        push_cast
        omega
      · intro index
        change Function.update directory.space.refpage (pageIndex page)
          (directory.space.refpage (pageIndex page) + 1) index = _
        simp only [List.map_append, List.map_cons, List.count_append,
          List.count_cons]
        by_cases same : index = pageIndex page
        · rw [same, Function.update_self, refpage]
          simp only [List.map_append, List.count_append, beq_self_eq_true,
            if_true]
          push_cast
          omega
        · rw [Function.update_of_ne same, refpage]
          simp [Ne.symm same]

theorem Built.of_step
    (built : Built start directory)
    {label : Label}
    (allowed : Allowed directory label)
    (taken : step directory label = .ok target) :
    Built start target := by
  cases label with
  | getPte va alloc => exact built.of_getPte taken
  | write va pointer value =>
      cases taken
      rcases built with
        ⟨⟨tables, values, shape, routed, pointers, isTable⟩, supply, cnt,
          refpage⟩
      rcases pointers va pointer allowed with ⟨table, here, rfl⟩
      exact ⟨⟨tables, _, shape.write here value, routed, pointers, isTable⟩,
        supply, cnt, refpage⟩
  | kallocPage => exact built.of_kallocPage taken

theorem Built.of_run
    {labels : List Label}
    {finish : Directory}
    (free : FreePages start)
    (made : initPgdir start = .ok directory)
    (run : Run (Takes step) Allowed directory labels finish) :
    Built start finish := by
  induction run with
  | nil => exact built_initPgdir free made
  | snoc _ allowed taken ih => exact ih.of_step allowed taken

end Runs

/-! ## The counters -/

section Counts

variable
    {start : Space}
    {directory : Directory}
    {page other : Word}

/-- Pages which have one reference each go back to the queue. -/
theorem foldl_release
    (pages : List Word)
    (before : Counters)
    (distinct : (pages.map pageIndex).Nodup)
    (ones : ∀ page ∈ pages, before.refpage (pageIndex page) = 1) :
    (pages.foldl Counters.release before).kallocPageCnt =
        before.kallocPageCnt - pages.length ∧
      (pages.foldl Counters.release before).queue =
        pages.reverse ++ before.queue ∧
      ∀ index,
        (pages.foldl Counters.release before).refpage index =
          before.refpage index - (pages.map pageIndex).count index := by
  induction pages generalizing before with
  | nil => simp
  | cons page pages ih =>
      rw [List.map_cons, List.nodup_cons] at distinct
      have one := ones page List.mem_cons_self
      have released :
          before.release page =
            ⟨Function.update before.refpage (pageIndex page) 0,
              before.kallocPageCnt - 1, page :: before.queue⟩ := by
        unfold Counters.release
        rw [one]
        rfl
      have later :
          ∀ other ∈ pages,
            (before.release page).refpage (pageIndex other) = 1 := by
        intro other member
        rw [released]
        dsimp only
        rw [Function.update_of_ne]
        · exact ones other (List.mem_cons_of_mem _ member)
        · intro same
          apply distinct.1
          rw [← same]
          exact List.mem_map_of_mem member
      rcases ih (before.release page) distinct.2 later with
        ⟨cnt, queue, refpage⟩
      rw [List.foldl_cons]
      refine ⟨?_, ?_, ?_⟩
      · rw [cnt, released, List.length_cons]
        push_cast
        omega
      · rw [queue, released, List.reverse_cons, List.append_assoc]
        rfl
      · intro index
        rw [refpage, released, List.map_cons, List.count_cons]
        dsimp only
        by_cases same : index = pageIndex page
        · rw [same, Function.update_self, one,
            List.count_eq_zero_of_not_mem distinct.1]
          simp
        · rw [Function.update_of_ne same]
          simp [Ne.symm same]

/-- What was taken are different pages of the memory. -/
theorem Built.pages
    (built : Built start directory)
    (free : FreePages start) :
    (directory.tables ++ directory.users).Nodup ∧
      ∀ page ∈ directory.tables ++ directory.users,
        page ∈ start.table.supply := by
  have nodup := built.supply.nodup_iff.mpr free.nodup
  refine ⟨(List.nodup_append.mp nodup).1, ?_⟩
  intro page member
  exact built.supply.mem_iff.mp (List.mem_append_left _ member)

theorem Built.one
    (built : Built start directory)
    (free : FreePages start)
    (member : page ∈ directory.tables ++ directory.users) :
    directory.space.refpage (pageIndex page) = 1 := by
  rcases built.pages free with ⟨nodup, inSupply⟩
  rw [built.refpage, free.counts page (inSupply page member)]
  have distinct :
      ((directory.tables ++ directory.users).map pageIndex).Nodup := by
    apply List.Nodup.map_on _ nodup
    intro first here second there same
    exact pageIndex_inj (free.pages first (inSupply first here))
      (free.pages second (inSupply second there)) same
  rw [List.count_eq_one_of_mem distinct (List.mem_map_of_mem member)]
  rfl

end Counts

/-- The tables are given back once each, and nothing else is. -/
structure ReleasesTables
    (start : Space)
    (directory : Directory)
    (target : Freed) : Prop where
  once : target.calls.Nodup
  calls : ∀ page, page ∈ target.calls ↔ page ∈ directory.tables
  users : ∀ page ∈ directory.users, page ∉ target.calls
  root : target.space.table.pt = none
  again : freePgdir target.space = .ok ⟨target.space, []⟩
  allocated :
    target.space.kallocPageCnt =
      start.kallocPageCnt + directory.users.length
  queue :
    (directory.users ++ target.space.table.supply).Perm start.table.supply
  refpage :
    ∀ index,
      target.space.refpage index =
        start.refpage index +
          (directory.users.map pageIndex).count index

/--
Whatever calls of `get_pte`, writes to leaves and other allocations built a
directory, `free_pgdir` gives back the pages of its tables, each once, and
only these.
-/
theorem free_pgdir_exact
    {start : Space}
    {directory finish : Directory}
    {labels : List Label}
    (free : FreePages start)
    (made : initPgdir start = .ok directory)
    (run : Run (Takes step) Allowed directory labels finish) :
    ∃ target,
      freePgdir finish.space = .ok target ∧
        ReleasesTables start finish target := by
  have built := Built.of_run free made run
  rcases built.pages free with ⟨nodup, inSupply⟩
  rcases built.shape with ⟨tables, values, shape, routed, -, isTable⟩
  have framed :
      ∀ route table, tables route = some table →
        pageIndex table < Pages.physPages := by
    intro route table found
    apply free.inside
    apply inSupply
    exact List.mem_append_left _ ((isTable table).mp ⟨route, found⟩)
  rcases freePgdir_gives shape routed framed with
    ⟨target, freed, root, once, called, counted⟩
  have calls : ∀ page, page ∈ target.calls ↔ page ∈ finish.tables :=
    fun page => (called page).trans (isTable page)
  have tablesNodup := (List.nodup_append.mp nodup).1
  have same : target.calls.Perm finish.tables :=
    (List.perm_ext_iff_of_nodup once tablesNodup).mpr calls
  have distinct : (target.calls.map pageIndex).Nodup := by
    apply List.Nodup.map_on _ once
    intro first here second there equal
    exact pageIndex_inj
      (free.pages first
        (inSupply first (List.mem_append_left _ ((calls first).mp here))))
      (free.pages second
        (inSupply second
          (List.mem_append_left _ ((calls second).mp there)))) equal
  have ones :
      ∀ page ∈ target.calls,
        (counters finish.space).refpage (pageIndex page) = 1 := by
    intro page member
    exact built.one free
      (List.mem_append_left _ ((calls page).mp member))
  rcases foldl_release target.calls (counters finish.space) distinct ones
    with ⟨cnt, queue, refpage⟩
  rw [← counted] at cnt queue refpage
  refine ⟨target, freed, once, calls, ?_, root, ?_, ?_, ?_, ?_⟩
  · intro page user member
    exact (List.nodup_append.mp nodup).2.2 page ((calls page).mp member)
      page user rfl
  · unfold freePgdir
    rw [root]
  · change target.space.kallocPageCnt = finish.space.kallocPageCnt - _
      at cnt
    rw [cnt, built.cnt, same.length_eq]
    omega
  · change target.space.table.supply =
      target.calls.reverse ++ finish.space.table.supply at queue
    rw [queue]
    refine List.Perm.trans ?_ built.supply
    rw [List.append_assoc]
    refine List.Perm.trans (List.perm_append_comm_assoc _ _ _) ?_
    exact List.Perm.append_right _ ((List.reverse_perm _).trans same)
  · intro index
    have value := refpage index
    change target.space.refpage index = finish.space.refpage index - _
      at value
    rw [value, built.refpage, List.map_append, List.count_append,
      (same.map pageIndex).count_eq]
    push_cast
    omega

instance (directory : Directory) (label : Label) :
    Decidable (Allowed directory label) :=
  match label with
  | .getPte _ _ => inferInstanceAs (Decidable True)
  | .write _ _ _ => inferInstanceAs (Decidable (_ ∈ _))
  | .kallocPage => inferInstanceAs (Decidable True)

/-- An allocator with eight free pages, whose contents are arbitrary. -/
def smallStart : Space where
  table := { memory := fun _ => 0x55, supply := firstPages, pt := none }
  refpage := fun _ => 0
  kallocPageCnt := 0
  pagenum := 8
  sections := []
  killed := false

/-- A user page is mapped, and another table is made. -/
def smallLabels : List Label :=
  [.getPte 0x1234 true, .kallocPage,
    .write 0x1234 0xFFFF000000103008 (0x104000 ||| pteUserData),
    .getPte 0x400000 true]

theorem free_pgdir_exact_small :
    ∃ directory finish target,
      initPgdir smallStart = .ok directory ∧
        Run (Takes step) Allowed directory smallLabels finish ∧
        finish.users = [0xFFFF000000104000] ∧
        freePgdir finish.space = .ok target ∧
        ReleasesTables smallStart finish target := by
  have free : FreePages smallStart := by
    refine ⟨firstPages_isPage, ?_, firstPages_nodup, fun _ _ => rfl⟩
    intro page member
    have indices :
        firstPages.map pageIndex =
          [0x100, 0x101, 0x102, 0x103, 0x104, 0x105, 0x106, 0x107] := by
      decide +kernel
    have index : pageIndex page ∈ firstPages.map pageIndex :=
      List.mem_map_of_mem member
    rw [indices] at index
    have frames : Pages.physPages = 0x80000 := rfl
    simp only [List.mem_cons, List.not_mem_nil, or_false] at index
    omega
  cases made : initPgdir smallStart with
  | error _ => cases made
  | ok directory =>
      have computed :
          ((executeChecked step
            (fun directory label => decide (Allowed directory label))
            directory smallLabels).map Directory.users) =
            some [0xFFFF000000104000] := by
        cases made
        decide +kernel
      rcases Option.map_eq_some_iff.mp computed with
        ⟨finish, executed, users⟩
      have run :
          Run (Takes step) Allowed directory smallLabels finish :=
        Run.of_executeChecked (fun _ _ => of_decide_eq_true) executed
      rcases free_pgdir_exact free made run with ⟨target, freed, releases⟩
      exact ⟨directory, finish, target, rfl, run, users, freed, releases⟩

end FudanOS.Kernel.FreePgdir
