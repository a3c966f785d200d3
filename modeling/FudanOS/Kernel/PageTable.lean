import FudanOS.Aarch64.Mmu
import FudanOS.Library.Runs

/-!
# Page tables

`init_pgdir` and `get_pte` of `kernel/pt.c`.  The memory is a function from
addresses to the words which are stored there.  `kalloc_page` hands out the
pages of a list; where a call needs a page and the list is empty, the model
has no result.

The theorem at the end says that a page table is a finite map from the bits 12
to 47 of virtual addresses to entries, in every run of `get_pte` and of writes
through the pointers which it has returned.  The lock and the sections of a
`struct pgdir` are not used by these functions and are left out.
-/

namespace FudanOS.Kernel.PageTable

open FudanOS.Aarch64.Mmu
open FudanOS.Library.BitFields
open FudanOS.Library.Runs

/-! ## The functions -/

structure State where
  memory : Word → Word
  /-- The pages which `kalloc_page` is going to return. -/
  supply : List Word
  /-- `pgdir->pt`, where `none` stands for `NULL`. -/
  pt : Option Word

def State.store (state : State) (address value : Word) : State :=
  { state with memory := Function.update state.memory address value }

/-- `kalloc_page`, and `memset` of the page to 0 -/
def newTable (state : State) : Except Unit (Word × State) :=
  match state.supply with
  | [] => .error ()
  | page :: rest =>
      .ok
        (page,
          { state with
            memory :=
              fun address =>
                if InPage page address then 0 else state.memory address
            supply := rest })

/--
The step from a table to the next one, which `get_pte` makes three times.
`none` is the `NULL` which it then returns.
-/
def nextTable (state : State) (pt index : Word) (alloc : Bool) :
    Except Unit (Option Word × State) :=
  if state.memory (entryAddress pt index) &&& pteValid = 0 then
    if alloc then do
      let (page, state) ← newTable state
      let state :=
        state.store (entryAddress pt index) (k2p page ||| pteTable)
      let entry := state.memory (entryAddress pt index)
      return (some (p2k (pteAddress entry)), state)
    else
      .ok (none, state)
  else
    .ok
      (some (p2k (pteAddress (state.memory (entryAddress pt index)))),
        state)

/-- The first table of the directory, as `get_pte` finds or makes it. -/
def rootTable (state : State) (alloc : Bool) :
    Except Unit (Option Word × State) :=
  match state.pt with
  | some pt0 => .ok (some pt0, state)
  | none =>
      if alloc then do
        let (page, state) ← newTable state
        return (some page, { state with pt := some page })
      else
        .ok (none, state)

/-- `get_pte` -/
def getPte (state : State) (va : Word) (alloc : Bool) :
    Except Unit (Option Word × State) := do
  let (pt0, state) ← rootTable state alloc
  let some pt0 := pt0 | return (none, state)
  let (pt1, state) ← nextTable state pt0 (vaPart0 va) alloc
  let some pt1 := pt1 | return (none, state)
  let (pt2, state) ← nextTable state pt1 (vaPart1 va) alloc
  let some pt2 := pt2 | return (none, state)
  let (pt3, state) ← nextTable state pt2 (vaPart2 va) alloc
  let some pt3 := pt3 | return (none, state)
  return (some (entryAddress pt3 (vaPart3 va)), state)

/-- `init_pgdir` -/
def initPgdir (memory : Word → Word) (supply : List Word) :
    Except Unit State := do
  let (page, state) ←
    newTable { memory := memory, supply := supply, pt := none }
  return { state with pt := some page }

/-! ## Runs -/

/-- A page directory, with the calls of `get_pte` which returned a pointer. -/
structure System where
  state : State
  returned : List (Word × Word)

inductive Label where
  | getPte (va : Word) (alloc : Bool)
  /-- A write through the pointer which a call with `va` returned. -/
  | write (va pointer value : Word)

def step (system : System) : Label → Except Unit System
  | .getPte va alloc => do
      let (pointer, state) ← getPte system.state va alloc
      match pointer with
      | some pointer =>
          .ok
            { state := state
              returned := (va, pointer) :: system.returned }
      | none => .ok { system with state := state }
  | .write _ pointer value =>
      .ok { system with state := system.state.store pointer value }

def Allowed (system : System) : Label → Prop
  | .getPte _ _ => True
  | .write va pointer _ => (va, pointer) ∈ system.returned

/-! ## The map -/

/-- The value which was last written through a pointer to the entry of `va`. -/
def written (labels : List Label) (va : Word) : Word :=
  labels.foldl
    (fun value label =>
      match label with
      | .write other _ new => if Agree 12 47 other va then new else value
      | .getPte _ _ => value)
    0

/-- A call with `alloc` has asked for the entries around `va`. -/
def Requested (labels : List Label) (va : Word) : Prop :=
  ∃ other, Label.getPte other true ∈ labels ∧ Agree 21 47 other va

/-- The page table is a finite map. -/
structure IsMap (labels : List Label) (system : System) : Prop where
  /-- Two calls return the same entry when the addresses agree. -/
  same :
    ∀ va pointer other second,
      (va, pointer) ∈ system.returned → (other, second) ∈ system.returned →
        (pointer = second ↔ Agree 12 47 va other)
  /-- An entry has the value which was written to it last, or 0. -/
  reads :
    ∀ va alloc pointer target,
      getPte system.state va alloc = .ok (some pointer, target) →
        target.memory pointer = written labels va
  /-- With `alloc`, the entry is made if it is not there. -/
  allocates :
    ∀ va, 3 ≤ system.state.supply.length →
      ∃ pointer target,
        getPte system.state va true = .ok (some pointer, target)
  /-- Without `alloc`, nothing changes, and only what was requested is there. -/
  finds :
    ∀ va, ∃ pointer,
      getPte system.state va false = .ok (pointer, system.state) ∧
        (pointer = none ↔ ¬ Requested labels va)

/-! ## The tree of the tables -/

/-- The index into the table on a level which a virtual address has. -/
def part (va : Word) : Nat → Word
  | 0 => vaPart0 va
  | 1 => vaPart1 va
  | 2 => vaPart2 va
  | _ => vaPart3 va

/-- The indices which lead to the table of a virtual address on a level. -/
def path (va : Word) : Nat → List Word
  | 0 => []
  | level + 1 => part va level :: path va level

/-- The entry which points to a table, or to none. -/
def encode : Option Word → Word
  | some table => k2p table ||| pteTable
  | none => 0

/--
The tables are at the ends of the paths which `tables` has, and the entries of
the last level have the values which `values` gives for virtual addresses.
-/
structure Shape
    (state : State)
    (tables : List Word → Option Word)
    (values : Word → Word) : Prop where
  root : state.pt = tables []
  rooted : tables [] ≠ none
  pages : ∀ page ∈ state.supply, IsPage page
  nodup : state.supply.Nodup
  used :
    ∀ route table, tables route = some table →
      IsPage table ∧ table ∉ state.supply
  injective :
    ∀ route other table, tables route = some table →
      tables other = some table → route = other
  closed :
    ∀ index route, tables route = none → tables (index :: route) = none
  inner :
    ∀ va level table, level < 3 → tables (path va level) = some table →
      state.memory (entryAddress table (part va level)) =
        encode (tables (path va (level + 1)))
  leaf :
    ∀ va table, tables (path va 3) = some table →
      state.memory (entryAddress table (part va 3)) = values va
  unwritten : ∀ va, tables (path va 3) = none → values va = 0

section Paths

variable {va other : Word}

theorem part_lt (va : Word) (level : Nat) : (part va level).toNat < 512 := by
  match level with
  | 0 => exact vaPart0_lt va
  | 1 => exact vaPart1_lt va
  | 2 => exact vaPart2_lt va
  | _ + 3 => exact vaPart3_lt va

@[simp]
theorem length_path (va : Word) (level : Nat) :
    (path va level).length = level := by
  induction level with
  | zero => rfl
  | succ level ih => exact congrArg Nat.succ ih

theorem path_level
    {level depth : Nat}
    (same : path va level = path other depth) :
    level = depth := by
  have lengths := congrArg List.length same
  rw [length_path, length_path] at lengths
  exact lengths

/-- Addresses share the last table when they agree on the bits above it. -/
theorem path_eq_iff :
    path va 3 = path other 3 ↔ Agree 21 47 va other := by
  rw [agree_tables_iff]
  constructor
  · intro same
    simp only [path, part, List.cons.injEq, and_true] at same
    exact ⟨same.2.2, same.2.1, same.1⟩
  · rintro ⟨first, second, third⟩
    simp only [path, part, List.cons.injEq, and_true]
    exact ⟨third, second, first⟩

theorem agree_iff :
    Agree 12 47 va other ↔
      path va 3 = path other 3 ∧ part va 3 = part other 3 := by
  rw [path_eq_iff, agree_entries_iff]
  rfl

end Paths

namespace Shape

variable
    {state target : State}
    {tables : List Word → Option Word}
    {values : Word → Word}
    {va : Word}

/-- A table which lies on the way to the last one is there. -/
theorem missing
    (shape : Shape state tables values)
    {level depth : Nat}
    (below : level ≤ depth)
    (absent : tables (path va level) = none) :
    tables (path va depth) = none := by
  induction depth, below using Nat.le_induction with
  | base => exact absent
  | succ depth _ ih => exact shape.closed _ _ ih

/-- An entry belongs to one table and one index. -/
theorem entry_inj
    (shape : Shape state tables values)
    {other : Word}
    {level depth : Nat}
    {table second : Word}
    (here : tables (path va level) = some table)
    (there : tables (path other depth) = some second)
    (same :
      entryAddress table (part va level) =
        entryAddress second (part other depth)) :
    path va (level + 1) = path other (depth + 1) := by
  have isTable := (shape.used _ _ here).1
  have isSecond := (shape.used _ _ there).1
  rcases entryAddress_inj isTable isSecond (part_lt va level)
    (part_lt other depth) same with ⟨rfl, sameIndex⟩
  have sameRoute := shape.injective _ _ _ here there
  unfold path
  rw [sameIndex, sameRoute]

/-- A new table is put below a table which has none at the index. -/
theorem allocate
    (shape : Shape state tables values)
    {level : Nat}
    {table page : Word}
    {rest : List Word}
    (inside : level < 3)
    (here : tables (path va level) = some table)
    (absent : tables (path va (level + 1)) = none)
    (offered : state.supply = page :: rest)
    (memory :
      target.memory =
        Function.update
          (fun address =>
            if InPage page address then 0 else state.memory address)
          (entryAddress table (part va level)) (k2p page ||| pteTable))
    (supply : target.supply = rest)
    (pt : target.pt = state.pt) :
    Shape target
      (Function.update tables (path va (level + 1)) (some page))
      values := by
  have isPage : IsPage page := by
    apply shape.pages
    rw [offered]
    exact List.mem_cons_self
  have nodup := shape.nodup
  rw [offered, List.nodup_cons] at nodup
  have unused :
      ∀ route other, tables route = some other → page ≠ other := by
    rintro route other found rfl
    apply (shape.used route page found).2
    rw [offered]
    exact List.mem_cons_self
  have isTable := (shape.used _ _ here).1
  have below : [] ≠ path va (level + 1) := (List.cons_ne_nil _ _).symm
  -- The memory after the step, at the entries of the new page and of others.
  have atNew :
      ∀ other depth,
        target.memory (entryAddress page (part other depth)) = 0 := by
    intro other depth
    rw [memory, Function.update_of_ne]
    · rw [if_pos]
      exact (inPage_entryAddress isPage isPage (part_lt other depth)).mpr
        rfl
    · intro same
      have equal := (entryAddress_inj isPage isTable (part_lt other depth)
        (part_lt va level) same).1
      exact unused _ _ here equal
  have atOld :
      ∀ other depth second, tables (path other depth) = some second →
        path other (depth + 1) ≠ path va (level + 1) →
          target.memory (entryAddress second (part other depth)) =
            state.memory (entryAddress second (part other depth)) := by
    intro other depth second found different
    rw [memory, Function.update_of_ne]
    · rw [if_neg]
      intro within
      have isSecond := (shape.used _ _ found).1
      exact unused _ _ found
        ((inPage_entryAddress isPage isSecond (part_lt other depth)).mp
          within)
    · intro same
      exact different (shape.entry_inj found here same)
  refine ⟨?_, ?_, ?_, ?_, ?_, ?_, ?_, ?_, ?_, ?_⟩
  · rw [pt, Function.update_of_ne below]
    exact shape.root
  · rw [Function.update_of_ne below]
    exact shape.rooted
  · intro other member
    rw [supply] at member
    apply shape.pages
    rw [offered]
    exact List.mem_cons_of_mem _ member
  · rw [supply]
    exact nodup.2
  · intro route other found
    rw [supply]
    by_cases new : route = path va (level + 1)
    · rw [new, Function.update_self] at found
      cases found
      exact ⟨isPage, nodup.1⟩
    · rw [Function.update_of_ne new] at found
      rcases shape.used route other found with ⟨isOther, absent⟩
      rw [offered] at absent
      exact ⟨isOther, fun member =>
        absent (List.mem_cons_of_mem _ member)⟩
  · intro route other second found again
    by_cases new : route = path va (level + 1)
    · by_cases alsoNew : other = path va (level + 1)
      · rw [new, alsoNew]
      · rw [new, Function.update_self] at found
        rw [Function.update_of_ne alsoNew] at again
        cases found
        exact absurd rfl (unused _ _ again)
    · by_cases alsoNew : other = path va (level + 1)
      · rw [Function.update_of_ne new] at found
        rw [alsoNew, Function.update_self] at again
        cases again
        exact absurd rfl (unused _ _ found)
      · rw [Function.update_of_ne new] at found
        rw [Function.update_of_ne alsoNew] at again
        exact shape.injective _ _ _ found again
  · intro index route missing
    by_cases new : route = path va (level + 1)
    · rw [new, Function.update_self] at missing
      cases missing
    · rw [Function.update_of_ne new] at missing
      rw [Function.update_of_ne]
      · exact shape.closed index route missing
      · intro same
        have parent : route = path va level := List.tail_eq_of_cons_eq same
        rw [parent, here] at missing
        cases missing
  · intro other depth second shallow found
    by_cases new : path other depth = path va (level + 1)
    · rw [new, Function.update_self] at found
      cases found
      have deeper : path other (depth + 1) ≠ path va (level + 1) := by
        intro same
        have levels := path_level same
        have sameLevels := path_level new
        omega
      rw [atNew, Function.update_of_ne deeper]
      have empty := shape.closed (part other depth) _ absent
      rw [← new] at empty
      change _ = encode (tables (part other depth :: path other depth))
      rw [empty]
      rfl
    · rw [Function.update_of_ne new] at found
      by_cases child : path other (depth + 1) = path va (level + 1)
      · have sameIndex : part other depth = part va level :=
          List.head_eq_of_cons_eq child
        have sameRoute : path other depth = path va level :=
          List.tail_eq_of_cons_eq child
        rw [sameRoute, here] at found
        cases found
        rw [child, Function.update_self, sameIndex, memory,
          Function.update_self]
        rfl
      · rw [atOld other depth second found child,
          Function.update_of_ne child]
        exact shape.inner other depth second shallow found
  · intro other second found
    by_cases new : path other 3 = path va (level + 1)
    · rw [new, Function.update_self] at found
      cases found
      rw [atNew]
      rw [← new] at absent
      exact (shape.unwritten other absent).symm
    · rw [Function.update_of_ne new] at found
      have deeper : path other (3 + 1) ≠ path va (level + 1) := by
        intro same
        have levels := path_level same
        omega
      rw [atOld other 3 second found deeper]
      exact shape.leaf other second found
  · intro other missing
    by_cases new : path other 3 = path va (level + 1)
    · rw [new, Function.update_self] at missing
      cases missing
    · rw [Function.update_of_ne new] at missing
      exact shape.unwritten other missing

end Shape

/-! ## Walks through the tables -/

/-- Tables are added at the paths of `va` only. -/
structure Grows
    (va : Word)
    (before after : List Word → Option Word) : Prop where
  kept : ∀ route table, before route = some table → after route = some table
  only :
    ∀ route, (∀ level, route ≠ path va level) → after route = before route

namespace Grows

variable
    {va : Word}
    {before middle after : List Word → Option Word}

theorem refl
    (va : Word)
    (tables : List Word → Option Word) :
    Grows va tables tables :=
  ⟨fun _ _ found => found, fun _ _ => rfl⟩

theorem trans
    (first : Grows va before middle)
    (second : Grows va middle after) :
    Grows va before after := by
  constructor
  · intro route table found
    exact second.kept route table (first.kept route table found)
  · intro route elsewhere
    rw [second.only route elsewhere, first.only route elsewhere]

theorem update
    {level : Nat}
    (absent : before (path va level) = none)
    (page : Word) :
    Grows va before
      (Function.update before (path va level) (some page)) := by
  constructor
  · intro route table found
    rw [Function.update_of_ne]
    · exact found
    · rintro rfl
      rw [absent] at found
      cases found
  · intro route elsewhere
    exact Function.update_of_ne (elsewhere level) _ _

/-- The last tables of other addresses are the same as before. -/
theorem last
    (grows : Grows va before after)
    {other : Word}
    (different : path other 3 ≠ path va 3) :
    after (path other 3) = before (path other 3) := by
  apply grows.only
  intro level same
  have levels := path_level same
  subst levels
  exact different same

end Grows

/-- The tables which are new are the pages which were taken. -/
structure Consumes
    (va : Word)
    (before after : List Word → Option Word)
    (supply rest : List Word) : Prop where
  pages :
    ∃ taken,
      supply = taken ++ rest ∧
        ∀ page,
          (∃ route, after route = some page) ↔
            (∃ route, before route = some page) ∨ page ∈ taken
  routes :
    ∀ route, after route ≠ none → before route = none →
      ∃ level ≤ 3, route = path va level

namespace Consumes

variable
    {va : Word}
    {before middle after : List Word → Option Word}
    {supply between rest : List Word}

theorem refl
    (va : Word)
    (tables : List Word → Option Word)
    (supply : List Word) :
    Consumes va tables tables supply supply := by
  refine ⟨⟨[], rfl, ?_⟩, ?_⟩
  · intro page
    simp
  · intro route there absent
    exact absurd absent there

theorem trans
    (first : Consumes va before middle supply between)
    (second : Consumes va middle after between rest) :
    Consumes va before after supply rest := by
  rcases first with ⟨⟨early, split, tables⟩, routes⟩
  rcases second with ⟨⟨late, again, more⟩, others⟩
  refine ⟨⟨early ++ late, ?_, ?_⟩, ?_⟩
  · rw [split, again, List.append_assoc]
  · intro page
    rw [more, tables, List.mem_append, or_assoc]
  · intro route there absent
    by_cases between : middle route = none
    · exact others route there between
    · exact routes route between absent

theorem update
    {level : Nat}
    {page : Word}
    (below : level ≤ 3)
    (absent : before (path va level) = none) :
    Consumes va before
      (Function.update before (path va level) (some page))
      (page :: rest) rest := by
  refine ⟨⟨[page], rfl, ?_⟩, ?_⟩
  · intro other
    rw [List.mem_singleton]
    constructor
    · rintro ⟨route, found⟩
      by_cases new : route = path va level
      · rw [new, Function.update_self] at found
        exact Or.inr (Option.some.inj found).symm
      · rw [Function.update_of_ne new] at found
        exact Or.inl ⟨route, found⟩
    · rintro (⟨route, found⟩ | rfl)
      · refine ⟨route, ?_⟩
        rw [Function.update_of_ne]
        · exact found
        · rintro rfl
          rw [absent] at found
          cases found
      · exact ⟨path va level, Function.update_self ..⟩
  · intro route there missing
    by_cases new : route = path va level
    · exact ⟨level, below, new⟩
    · rw [Function.update_of_ne new] at there
      exact absurd missing there

end Consumes

theorem of_bind
    {Value Result : Type}
    {computation : Except Unit Value}
    {continuation : Value → Except Unit Result}
    {result : Result}
    (called : (computation >>= continuation) = .ok result) :
    ∃ value, computation = .ok value ∧ continuation value = .ok result := by
  cases computation with
  | error _ => cases called
  | ok value => exact ⟨value, rfl, called⟩

theorem newTable_eq
    {state target : State}
    {page : Word}
    (called : newTable state = .ok (page, target)) :
    ∃ rest,
      state.supply = page :: rest ∧
        target =
          { state with
            memory :=
              fun address =>
                if InPage page address then 0 else state.memory address
            supply := rest } := by
  unfold newTable at called
  cases supply : state.supply with
  | nil =>
      rw [supply] at called
      cases called
  | cons first rest =>
      rw [supply] at called
      cases called
      exact ⟨rest, rfl, rfl⟩

theorem valid_encode (table : Option Word) :
    encode table &&& pteValid = 0 ↔ table = none := by
  cases table with
  | none => simp [encode]
  | some table =>
      simp only [reduceCtorEq, iff_false]
      exact valid_pteTable (k2p table)

namespace Shape

variable
    {state target : State}
    {tables : List Word → Option Word}
    {values : Word → Word}
    {va : Word}
    {alloc : Bool}

/-- `get_pte` goes from a table to the next one. -/
theorem nextTable
    (shape : Shape state tables values)
    {level : Nat}
    {table : Word}
    {result : Option Word}
    (inside : level < 3)
    (here : tables (path va level) = some table)
    (called :
      PageTable.nextTable state table (part va level) alloc =
        .ok (result, target)) :
    ∃ after,
      Shape target after values ∧ Grows va tables after ∧
        result = after (path va (level + 1)) ∧
        (alloc = true → result ≠ none) ∧
        (alloc = false → target = state ∧ after = tables) ∧
        Consumes va tables after state.supply target.supply := by
  have entry := shape.inner va level table inside here
  unfold PageTable.nextTable at called
  rw [entry] at called
  cases found : tables (path va (level + 1)) with
  | some next =>
      have valid : ¬ encode (some next) &&& pteValid = 0 := by
        rw [valid_encode]
        exact Option.some_ne_none next
      rw [found, if_neg valid] at called
      cases called
      have isNext := (shape.used _ _ found).1
      refine ⟨tables, shape, Grows.refl va tables, ?_, ?_, ?_,
        Consumes.refl va tables state.supply⟩
      · rw [found]
        exact congrArg some (follow isNext)
      · intro _
        exact Option.some_ne_none _
      · intro _
        exact ⟨rfl, rfl⟩
  | none =>
      have invalid : encode none &&& pteValid = 0 :=
        (valid_encode none).mpr rfl
      rw [found, if_pos invalid] at called
      cases alloc with
      | false =>
          cases called
          refine ⟨tables, shape, Grows.refl va tables, found.symm, ?_, ?_,
            Consumes.refl va tables state.supply⟩
          · intro impossible
            cases impossible
          · intro _
            exact ⟨rfl, rfl⟩
      | true =>
          rw [if_pos rfl] at called
          cases made : newTable state with
          | error _ =>
              rw [made] at called
              cases called
          | ok pair =>
              rcases pair with ⟨page, middle⟩
              rw [made] at called
              cases called
              rcases newTable_eq made with ⟨rest, offered, rfl⟩
              have isPage : IsPage page := by
                apply shape.pages
                rw [offered]
                exact List.mem_cons_self
              refine
                ⟨Function.update tables (path va (level + 1)) (some page),
                  shape.allocate inside here found offered rfl rfl rfl,
                  Grows.update found page, ?_, ?_, ?_, ?_⟩
              · unfold State.store
                dsimp only
                rw [Function.update_self, Function.update_self,
                  follow isPage]
              · intro _
                exact Option.some_ne_none _
              · intro impossible
                cases impossible
              · rw [offered]
                exact Consumes.update (by omega) found

end Shape

/-- What a walk of `get_pte` to the table on a level leaves. -/
structure Reaches
    (va : Word)
    (alloc : Bool)
    (level : Nat)
    (state : State)
    (tables : List Word → Option Word)
    (values : Word → Word)
    (found : Option Word)
    (target : State)
    (after : List Word → Option Word) : Prop where
  shape : Shape target after values
  grows : Grows va tables after
  leads : found = after (path va level)
  made : alloc = true → found ≠ none
  unchanged : alloc = false → target = state ∧ after = tables
  consumes : Consumes va tables after state.supply target.supply

namespace Reaches

variable
    {state middle target : State}
    {tables between : List Word → Option Word}
    {values : Word → Word}
    {va : Word}
    {alloc : Bool}
    {level : Nat}
    {found : Option Word}

theorem root
    (va : Word)
    (shape : Shape state tables values)
    (called : rootTable state alloc = .ok (found, target)) :
    Reaches va alloc 0 state tables values found target tables := by
  have root := shape.root
  cases pt : state.pt with
  | none =>
      rw [pt] at root
      exact absurd root.symm shape.rooted
  | some table =>
      unfold rootTable at called
      rw [pt] at called root
      cases called
      refine ⟨shape, Grows.refl va tables, root, ?_, ?_,
        Consumes.refl va tables state.supply⟩
      · intro _
        exact Option.some_ne_none table
      · intro _
        exact ⟨rfl, rfl⟩

theorem next
    {table : Word}
    (reached :
      Reaches va alloc level state tables values (some table) middle
        between)
    (inside : level < 3)
    (called :
      nextTable middle table (part va level) alloc = .ok (found, target)) :
    ∃ after,
      Reaches va alloc (level + 1) state tables values found target
        after := by
  rcases reached.shape.nextTable inside reached.leads.symm called with
    ⟨after, shape, grows, leads, made, unchanged, consumes⟩
  refine ⟨after, shape, reached.grows.trans grows, leads, made, ?_,
    reached.consumes.trans consumes⟩
  intro isFalse
  rcases unchanged isFalse with ⟨rfl, rfl⟩
  exact reached.unchanged isFalse

/-- A walk which ends early does not find a table on the last level. -/
theorem last
    (reached :
      Reaches va alloc level state tables values none target between)
    (inside : level ≤ 3) :
    Reaches va alloc 3 state tables values none target between := by
  refine ⟨reached.shape, reached.grows, ?_, reached.made,
    reached.unchanged, reached.consumes⟩
  exact (reached.shape.missing inside reached.leads.symm).symm

end Reaches

/-- `get_pte` finds or makes the last table. -/
theorem reaches_getPte
    {state target : State}
    {tables : List Word → Option Word}
    {values : Word → Word}
    {va : Word}
    {alloc : Bool}
    {pointer : Option Word}
    (shape : Shape state tables values)
    (called : getPte state va alloc = .ok (pointer, target)) :
    ∃ found after,
      Reaches va alloc 3 state tables values found target after ∧
        pointer = found.map fun table => entryAddress table (part va 3) := by
  unfold getPte at called
  rcases of_bind called with ⟨⟨found, middle⟩, first, called⟩
  have reached := Reaches.root va shape first
  cases found with
  | none =>
      cases called
      exact ⟨none, tables, reached.last (by decide), rfl⟩
  | some pt0 =>
      dsimp only at called
      rcases of_bind called with ⟨⟨found, middle⟩, second, called⟩
      rcases reached.next (by decide) second with ⟨after, reached⟩
      cases found with
      | none =>
          cases called
          exact ⟨none, after, reached.last (by decide), rfl⟩
      | some pt1 =>
          dsimp only at called
          rcases of_bind called with ⟨⟨found, middle⟩, third, called⟩
          rcases reached.next (by decide) third with ⟨after, reached⟩
          cases found with
          | none =>
              cases called
              exact ⟨none, after, reached.last (by decide), rfl⟩
          | some pt2 =>
              dsimp only at called
              rcases of_bind called with ⟨⟨found, middle⟩, fourth, called⟩
              rcases reached.next (by decide) fourth with ⟨after, reached⟩
              cases found with
              | none =>
                  cases called
                  exact ⟨none, after, reached, rfl⟩
              | some pt3 =>
                  cases called
                  exact ⟨some pt3, after, reached, rfl⟩

/-! ## Calls return -/

section Returns

variable {state : State}

theorem newTable_returns
    (enough : state.supply ≠ []) :
    ∃ page target,
      newTable state = .ok (page, target) ∧
        state.supply.length = target.supply.length + 1 := by
  unfold newTable
  cases supply : state.supply with
  | nil => exact absurd supply enough
  | cons page rest => exact ⟨page, _, rfl, rfl⟩

/-- A step to the next table takes at most one page. -/
theorem nextTable_returns
    {alloc : Bool}
    (pt index : Word)
    (enough : alloc = true → state.supply ≠ []) :
    ∃ found target,
      nextTable state pt index alloc = .ok (found, target) ∧
        state.supply.length ≤ target.supply.length + 1 := by
  unfold nextTable
  split_ifs with invalid isTrue
  · rcases newTable_returns (enough isTrue) with
      ⟨page, target, made, pages⟩
    rw [made]
    exact ⟨_, _, rfl, pages.le⟩
  · exact ⟨none, state, rfl, Nat.le_succ _⟩
  · exact ⟨_, state, rfl, Nat.le_succ _⟩

/-- `get_pte` takes at most three pages. -/
theorem getPte_returns
    (va : Word)
    (alloc : Bool)
    (rooted : state.pt ≠ none)
    (enough : alloc = true → 3 ≤ state.supply.length) :
    ∃ pointer target,
      getPte state va alloc = .ok (pointer, target) ∧
        state.supply.length ≤ target.supply.length + 3 := by
  have remains :
      ∀ {target : State} {count : Nat},
        (alloc = true → count + 1 ≤ target.supply.length) →
          alloc = true → target.supply ≠ [] := by
    intro target count enough isTrue empty
    have left := enough isTrue
    rw [empty] at left
    exact Nat.not_succ_le_zero _ left
  cases pt : state.pt with
  | none => exact absurd pt rooted
  | some pt0 =>
      have first : rootTable state alloc = .ok (some pt0, state) := by
        unfold rootTable
        rw [pt]
      rcases nextTable_returns pt0 (vaPart0 va) (remains enough) with
        ⟨found, middle, second, pages⟩
      have enough : alloc = true → 2 ≤ middle.supply.length := by
        intro isTrue
        have := enough isTrue
        omega
      unfold getPte
      simp only [first, second, bind, Except.bind, pure, Except.pure]
      cases found with
      | none => exact ⟨none, middle, rfl, by omega⟩
      | some pt1 =>
          rcases nextTable_returns pt1 (vaPart1 va) (remains enough) with
            ⟨found, later, third, pages⟩
          have enough : alloc = true → 1 ≤ later.supply.length := by
            intro isTrue
            have := enough isTrue
            omega
          simp only [third]
          cases found with
          | none => exact ⟨none, later, rfl, by omega⟩
          | some pt2 =>
              rcases nextTable_returns pt2 (vaPart2 va) (remains enough)
                with ⟨found, final, fourth, left⟩
              simp only [fourth]
              cases found with
              | none => exact ⟨none, final, rfl, by omega⟩
              | some pt3 => exact ⟨_, final, rfl, by omega⟩

end Returns

/-! ## Writes -/

/-- A write to an entry of the last level changes the value of its address. -/
theorem Shape.write
    {state : State}
    {tables : List Word → Option Word}
    {values : Word → Word}
    {va table : Word}
    (shape : Shape state tables values)
    (here : tables (path va 3) = some table)
    (value : Word) :
    Shape (state.store (entryAddress table (part va 3)) value) tables
      fun other => if Agree 12 47 va other then value else values other := by
  refine ⟨shape.root, shape.rooted, shape.pages, shape.nodup, shape.used,
    shape.injective, shape.closed, ?_, ?_, ?_⟩
  · intro other level second inside there
    unfold State.store
    dsimp only
    rw [Function.update_of_ne]
    · exact shape.inner other level second inside there
    · intro same
      have levels := path_level (shape.entry_inj there here same)
      omega
  · intro other second there
    unfold State.store
    dsimp only
    by_cases agree : Agree 12 47 va other
    · rcases agree_iff.mp agree with ⟨sameRoute, sameIndex⟩
      rw [sameRoute, there] at here
      cases here
      rw [if_pos agree, sameIndex, Function.update_self]
    · rw [if_neg agree, Function.update_of_ne]
      · exact shape.leaf other second there
      · intro same
        have routes := shape.entry_inj there here same
        apply agree
        apply agree_iff.mpr
        exact ⟨(List.tail_eq_of_cons_eq routes).symm,
          (List.head_eq_of_cons_eq routes).symm⟩
  · intro other absent
    rw [if_neg]
    · exact shape.unwritten other absent
    · intro agree
      rw [(agree_iff.mp agree).1, absent] at here
      cases here

/-- The first free page is taken for something else than a table. -/
theorem Shape.offered
    {state : State}
    {tables : List Word → Option Word}
    {values : Word → Word}
    {page : Word}
    {rest : List Word}
    (shape : Shape state tables values)
    (offered : state.supply = page :: rest) :
    Shape { state with supply := rest } tables values := by
  have nodup := shape.nodup
  rw [offered, List.nodup_cons] at nodup
  refine ⟨shape.root, shape.rooted, ?_, nodup.2, ?_, shape.injective,
    shape.closed, shape.inner, shape.leaf, shape.unwritten⟩
  · intro other member
    apply shape.pages
    rw [offered]
    exact List.mem_cons_of_mem page member
  · intro route table found
    rcases shape.used route table found with ⟨isPage, absent⟩
    rw [offered] at absent
    exact ⟨isPage, fun member =>
      absent (List.mem_cons_of_mem page member)⟩

/-! ## Whole runs -/

/-- The tables are there for what was requested, with what was written. -/
structure Invariant
    (labels : List Label)
    (system : System)
    (tables : List Word → Option Word) : Prop where
  shape : Shape system.state tables (written labels)
  returned :
    ∀ va pointer, (va, pointer) ∈ system.returned →
      ∃ table,
        tables (path va 3) = some table ∧
          pointer = entryAddress table (part va 3)
  requested : ∀ va, tables (path va 3) ≠ none ↔ Requested labels va

theorem written_write
    (labels : List Label)
    (va pointer value : Word) :
    written (labels ++ [.write va pointer value]) =
      fun other =>
        if Agree 12 47 va other then value else written labels other := by
  funext other
  unfold written
  rw [List.foldl_append]
  rfl

theorem written_getPte
    (labels : List Label)
    (va : Word)
    (alloc : Bool) :
    written (labels ++ [.getPte va alloc]) = written labels := by
  funext other
  unfold written
  rw [List.foldl_append]
  rfl

theorem requested_getPte
    (labels : List Label)
    (va other : Word)
    (alloc : Bool) :
    Requested (labels ++ [.getPte va alloc]) other ↔
      Requested labels other ∨ alloc = true ∧ Agree 21 47 va other := by
  unfold Requested
  simp only [List.mem_append, List.mem_singleton, Label.getPte.injEq]
  constructor
  · rintro ⟨asked, member | ⟨rfl, isTrue⟩, agree⟩
    · exact Or.inl ⟨asked, member, agree⟩
    · exact Or.inr ⟨isTrue.symm, agree⟩
  · rintro (⟨asked, member, agree⟩ | ⟨isTrue, agree⟩)
    · exact ⟨asked, Or.inl member, agree⟩
    · exact ⟨va, Or.inr ⟨rfl, isTrue.symm⟩, agree⟩

theorem requested_write
    (labels : List Label)
    (va pointer value other : Word) :
    Requested (labels ++ [.write va pointer value]) other ↔
      Requested labels other := by
  unfold Requested
  simp

namespace Invariant

variable
    {labels : List Label}
    {system target : System}
    {tables : List Word → Option Word}

theorem getPte
    (invariant : Invariant labels system tables)
    {va : Word}
    {alloc : Bool}
    {pointer : Option Word}
    {state : State}
    (called :
      PageTable.getPte system.state va alloc = .ok (pointer, state))
    (isState : target.state = state)
    (returned :
      ∀ other second, (other, second) ∈ target.returned →
        (other, second) ∈ system.returned ∨
          other = va ∧ pointer = some second) :
    ∃ after, Invariant (labels ++ [.getPte va alloc]) target after := by
  rcases reaches_getPte invariant.shape called with
    ⟨found, after, reached, leads⟩
  refine ⟨after, ?_, ?_, ?_⟩
  · rw [isState, written_getPte]
    exact reached.shape
  · intro other second member
    rcases returned other second member with before | ⟨rfl, isPointer⟩
    · rcases invariant.returned other second before with
        ⟨table, there, isEntry⟩
      exact ⟨table, reached.grows.kept _ _ there, isEntry⟩
    · rw [leads, Option.map_eq_some_iff] at isPointer
      rcases isPointer with ⟨table, isFound, isEntry⟩
      exact ⟨table, reached.leads.symm.trans isFound, isEntry.symm⟩
  · intro other
    rw [requested_getPte, ← invariant.requested, ← path_eq_iff]
    cases alloc with
    | false =>
        rw [(reached.unchanged rfl).2]
        simp
    | true =>
        by_cases same : path va 3 = path other 3
        · rw [← same, ← reached.leads]
          exact ⟨fun _ => Or.inr ⟨rfl, rfl⟩, fun _ => reached.made rfl⟩
        · rw [reached.grows.last fun equal => same equal.symm]
          simp [same]

theorem write
    (invariant : Invariant labels system tables)
    {va pointer : Word}
    (member : (va, pointer) ∈ system.returned)
    (value : Word) :
    Invariant (labels ++ [.write va pointer value])
      { system with state := system.state.store pointer value }
      tables := by
  rcases invariant.returned va pointer member with ⟨table, here, rfl⟩
  refine ⟨?_, invariant.returned, ?_⟩
  · rw [written_write]
    exact invariant.shape.write here value
  · intro other
    rw [requested_write]
    exact invariant.requested other

theorem of_step
    (invariant : Invariant labels system tables)
    {label : Label}
    (allowed : Allowed system label)
    (taken : step system label = .ok target) :
    ∃ after, Invariant (labels ++ [label]) target after := by
  cases label with
  | getPte va alloc =>
      unfold step at taken
      rcases of_bind taken with ⟨⟨pointer, state⟩, called, taken⟩
      cases pointer with
      | none =>
          cases taken
          apply invariant.getPte called rfl
          intro other second member
          exact Or.inl member
      | some pointer =>
          cases taken
          apply invariant.getPte called rfl
          intro other second member
          rcases List.mem_cons.mp member with new | old
          · cases new
            exact Or.inr ⟨rfl, rfl⟩
          · exact Or.inl old
  | write va pointer value =>
      cases taken
      exact ⟨tables, invariant.write allowed value⟩

/-- Pointers are equal when the addresses agree. -/
theorem same
    (invariant : Invariant labels system tables)
    {va pointer other second : Word}
    (first : (va, pointer) ∈ system.returned)
    (again : (other, second) ∈ system.returned) :
    pointer = second ↔ Agree 12 47 va other := by
  rcases invariant.returned va pointer first with ⟨table, here, rfl⟩
  rcases invariant.returned other second again with ⟨next, there, rfl⟩
  rw [agree_iff]
  constructor
  · intro equal
    have routes := invariant.shape.entry_inj here there equal
    exact ⟨List.tail_eq_of_cons_eq routes, List.head_eq_of_cons_eq routes⟩
  · rintro ⟨sameRoute, sameIndex⟩
    rw [sameRoute, there] at here
    cases here
    rw [sameIndex]

theorem isMap
    (invariant : Invariant labels system tables) :
    IsMap labels system := by
  have rooted : system.state.pt ≠ none := by
    rw [invariant.shape.root]
    exact invariant.shape.rooted
  refine ⟨?_, ?_, ?_, ?_⟩
  · intro va pointer other second first again
    exact invariant.same first again
  · intro va alloc pointer target called
    rcases reaches_getPte invariant.shape called with
      ⟨found, after, reached, leads⟩
    rcases Option.map_eq_some_iff.mp leads.symm with
      ⟨table, isFound, isEntry⟩
    rw [← isEntry]
    exact reached.shape.leaf va table (reached.leads.symm.trans isFound)
  · intro va enough
    rcases getPte_returns va true rooted (fun _ => enough) with
      ⟨pointer, target, called, _⟩
    rcases reaches_getPte invariant.shape called with
      ⟨found, after, reached, leads⟩
    cases found with
    | none => exact absurd rfl (reached.made rfl)
    | some table =>
        rw [leads] at called
        exact ⟨_, target, called⟩
  · intro va
    rcases getPte_returns va false rooted nofun with
      ⟨pointer, target, called, _⟩
    rcases reaches_getPte invariant.shape called with
      ⟨found, after, reached, leads⟩
    rcases reached.unchanged rfl with ⟨rfl, rfl⟩
    refine ⟨pointer, called, ?_⟩
    rw [leads, Option.map_eq_none_iff, reached.leads,
      ← invariant.requested va, not_not]

end Invariant

/-- The directory has its first table only. -/
def onlyRoot (page : Word) : List Word → Option Word :=
  fun route => if route = [] then some page else none

theorem onlyRoot_eq_some
    {page table : Word}
    {route : List Word}
    (found : onlyRoot page route = some table) :
    route = [] ∧ table = page := by
  cases route with
  | nil => exact ⟨rfl, (Option.some.inj found).symm⟩
  | cons index route =>
      have absent : onlyRoot page (index :: route) = none :=
        if_neg (List.cons_ne_nil index route)
      rw [absent] at found
      cases found

theorem shape_initPgdir
    {memory : Word → Word}
    {supply : List Word}
    {state : State}
    (pages : ∀ page ∈ supply, IsPage page)
    (nodup : supply.Nodup)
    (made : initPgdir memory supply = .ok state) :
    ∃ page rest,
      supply = page :: rest ∧ state.supply = rest ∧
        Shape state (onlyRoot page) fun _ => 0 := by
  unfold initPgdir at made
  rcases of_bind made with ⟨⟨page, middle⟩, called, made⟩
  cases made
  rcases newTable_eq called with ⟨rest, offered, rfl⟩
  dsimp only at offered
  subst offered
  rw [List.nodup_cons] at nodup
  have isPage := pages page List.mem_cons_self
  have below : ∀ index route, onlyRoot page (index :: route) = none :=
    fun index route => if_neg (List.cons_ne_nil index route)
  refine ⟨page, rest, rfl, rfl, rfl, Option.some_ne_none page, ?_, nodup.2,
    ?_, ?_, ?_, ?_, ?_, ?_⟩
  · intro other member
    exact pages other (List.mem_cons_of_mem _ member)
  · intro route table found
    rw [(onlyRoot_eq_some found).2]
    exact ⟨isPage, nodup.1⟩
  · intro route other table found again
    rw [(onlyRoot_eq_some found).1, (onlyRoot_eq_some again).1]
  · intro index route _
    exact below index route
  · intro va level table _ found
    rw [(onlyRoot_eq_some found).2]
    dsimp only
    rw [if_pos ((inPage_entryAddress isPage isPage (part_lt va level)).mpr
      rfl)]
    change _ = encode (onlyRoot page (part va level :: path va level))
    rw [below]
    rfl
  · intro va table found
    exact absurd (onlyRoot_eq_some found).1 (List.cons_ne_nil _ _)
  · intro va _
    rfl

theorem invariant_initPgdir
    {memory : Word → Word}
    {supply : List Word}
    {state : State}
    (pages : ∀ page ∈ supply, IsPage page)
    (nodup : supply.Nodup)
    (made : initPgdir memory supply = .ok state) :
    ∃ tables, Invariant [] { state := state, returned := [] } tables := by
  rcases shape_initPgdir pages nodup made with ⟨page, rest, -, -, shape⟩
  refine ⟨onlyRoot page, shape, ?_, ?_⟩
  · intro va pointer member
    exact absurd member List.not_mem_nil
  · intro va
    constructor
    · intro there
      exact absurd (if_neg (List.cons_ne_nil _ _)) there
    · rintro ⟨other, member, _⟩
      exact absurd member List.not_mem_nil

theorem invariant_of_run
    {memory : Word → Word}
    {supply : List Word}
    {start : State}
    {labels : List Label}
    {finish : System}
    (pages : ∀ page ∈ supply, IsPage page)
    (nodup : supply.Nodup)
    (made : initPgdir memory supply = .ok start)
    (run :
      Run (Takes step) Allowed { state := start, returned := [] } labels
        finish) :
    ∃ tables, Invariant labels finish tables := by
  induction run with
  | nil => exact invariant_initPgdir pages nodup made
  | snoc _ permitted taken ih =>
      rcases ih with ⟨tables, invariant⟩
      exact invariant.of_step permitted taken

/--
The four levels of tables are a finite map from the bits 12 to 47 of virtual
addresses, whatever the memory held before and whatever fresh pages
`kalloc_page` returns.
-/
theorem page_table_is_map
    {memory : Word → Word}
    {supply : List Word}
    {start : State}
    {labels : List Label}
    {finish : System}
    (pages : ∀ page ∈ supply, IsPage page)
    (nodup : supply.Nodup)
    (made : initPgdir memory supply = .ok start)
    (run :
      Run (Takes step) Allowed { state := start, returned := [] } labels
        finish) :
    IsMap labels finish := by
  rcases invariant_of_run pages nodup made run with ⟨tables, invariant⟩
  exact invariant.isMap

instance (system : System) (label : Label) :
    Decidable (Allowed system label) :=
  match label with
  | .getPte _ _ => inferInstanceAs (Decidable True)
  | .write _ _ _ => inferInstanceAs (Decidable (_ ∈ _))

/-- The pages from the physical address 1 MiB on. -/
def firstPages : List Word :=
  (List.range 8).map fun index =>
    p2k (0x100000 + 4096 * BitVec.ofNat 64 index)

theorem firstPages_isPage :
    ∀ page ∈ firstPages, IsPage page := by
  intro page member
  rcases List.mem_map.mp member with ⟨index, inside, rfl⟩
  refine ⟨_, rfl, ?_⟩
  have aligned :
      ∀ index ∈ List.range 8,
        pteFlags (0x100000 + 4096 * BitVec.ofNat 64 index) = 0 := by
    decide
  exact aligned index inside

theorem firstPages_nodup : firstPages.Nodup := by
  decide

/--
The addresses `0x1234` and `0x400000` are requested, and a write goes through
the pointer for the first of them, which is in the fourth page of the supply.
-/
def twoAddresses : List Label :=
  [.getPte 0x1234 false, .getPte 0x1234 true,
    .write 0x1234 0xFFFF000000103008 0x40000007, .getPte 0x400000 true,
    .getPte 0x1FFF false]

theorem page_table_is_map_two_addresses :
    (∀ page ∈ firstPages, IsPage page) ∧ firstPages.Nodup ∧
      ∃ start finish,
        initPgdir (fun _ => 0x55) firstPages = .ok start ∧
          Run (Takes step) Allowed { state := start, returned := [] }
            twoAddresses finish ∧
          finish.returned =
            [(0x1FFF, 0xFFFF000000103008), (0x400000, 0xFFFF000000104000),
              (0x1234, 0xFFFF000000103008)] ∧
          IsMap twoAddresses finish := by
  cases made : initPgdir (fun _ => 0x55) firstPages with
  | error _ => cases made
  | ok start =>
      have computed :
          ((executeChecked step
            (fun system label => decide (Allowed system label))
            { state := start, returned := [] } twoAddresses).map
              System.returned) =
            some
              [(0x1FFF, 0xFFFF000000103008),
                (0x400000, 0xFFFF000000104000),
                (0x1234, 0xFFFF000000103008)] := by
        cases made
        decide +kernel
      rcases Option.map_eq_some_iff.mp computed with
        ⟨finish, executed, returned⟩
      have run :
          Run (Takes step) Allowed { state := start, returned := [] }
            twoAddresses finish :=
        Run.of_executeChecked (fun _ _ => of_decide_eq_true) executed
      exact ⟨firstPages_isPage, firstPages_nodup, start, finish, rfl, run,
        returned,
        page_table_is_map firstPages_isPage firstPages_nodup made run⟩

end FudanOS.Kernel.PageTable
