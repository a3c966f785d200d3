import FudanOS.Kernel.AddressSpaces
import FudanOS.Kernel.TableTree
import Mathlib.Data.Nat.Count
import Mathlib.Tactic.Ring

/-!
# The copy of an address space

The four loops of `fork` of `kernel/proc.c`, which walk the tables of the
parent and map a copy of each of its pages for the child.  The loops are shown
to go through the pages in the order of their numbers.
-/

namespace FudanOS.Kernel.ForkCopy

open FudanOS.Aarch64.Mmu
open FudanOS.Library.BitFields
open FudanOS.Library.Views
open FudanOS.Kernel.PageTable
open FudanOS.Kernel.Paging
open FudanOS.Kernel.UserMemory
open FudanOS.Kernel.AddressSpaces

/-! ## The loops -/

/-- Why the copy does not end well. -/
inductive Halt where
  /-- `kalloc_page` has no page. -/
  | noPage
  /-- `NULL` is read or written. -/
  | null
  | assertion
  deriving DecidableEq

/-- `N_PTE_PER_TABLE` -/
def nPtePerTable : Nat := 512

/-- A loop over the valid entries of a table. -/
def visit (pt : Word) (body : Memory → Word → Nat → Except Halt Memory)
    (memory : Memory) : Except Halt Memory :=
  (List.range nPtePerTable).foldlM
    (fun memory i =>
      let entry :=
        memory.table.memory (entryAddress pt (BitVec.ofNat 64 i))
      if entry &&& pteValid ≠ 0 then body memory entry i else .ok memory)
    memory

/-- The table which an entry points to -/
def descend (entry : Word) (next : Word → Except Halt Memory) :
    Except Halt Memory :=
  if entry &&& pteTable ≠ 0 then
    next (p2k (pteAddress entry))
  else
    .error .assertion

/-- The innermost body: a page is copied. -/
def copyPage (i i1 i2 : Nat) (memory : Memory) (entry : Word) (i3 : Nat) :
    Except Halt Memory :=
  if entry &&& ptePage = 0 ∨ entry &&& pteUser = 0 ∨
      entry &&& pteNormal = 0 then
    .error .assertion
  else
    let va : Word :=
      BitVec.ofNat 64 i <<< 39 ||| BitVec.ofNat 64 i1 <<< 30 |||
        BitVec.ofNat 64 i2 <<< 21 ||| BitVec.ofNat 64 i3 <<< 12
    let pa := pteAddress entry
    match UserMemory.kallocPage memory with
    | .error _ => .error .noPage
    | .ok (np, memory) =>
        let memory :=
          memory.fill np pageSize fun offset =>
            memory.bytes (p2k pa + BitVec.ofNat 64 offset)
        match PageTable.getPte memory.table va true with
        | .error _ => .error .noPage
        | .ok (none, _) => .error .null
        | .ok (some pte, table) =>
            .ok
              (Memory.store { memory with table := table } pte
                (k2p np ||| pteUserData))

/-- The loops; `root` is `parent->pgdir.pt`, and the memory is the child's. -/
def copyTables (root : Word) (memory : Memory) : Except Halt Memory :=
  visit root
    (fun memory entry i =>
      descend entry fun pgt1 =>
        visit pgt1
          (fun memory entry i1 =>
            descend entry fun pgt2 =>
              visit pgt2
                (fun memory entry i2 =>
                  descend entry fun pgt3 =>
                    visit pgt3 (copyPage i i1 i2) memory)
                memory)
          memory)
    memory

/-- `init_pgdir(temp)`, and the loops of `fork` -/
def forkMemory (memory : Memory) : Except Halt Memory :=
  match initPgdir memory.table.memory memory.table.supply with
  | .error _ => .error .noPage
  | .ok table =>
      match memory.table.pt with
      | none => .error .null
      | some root => copyTables root { memory with table := table }

/-! ## Numbers of pages -/

/-- The indices which lead to the table with a number on a level. -/
def route : Nat → Nat → List Word
  | 0, _ => []
  | level + 1, number =>
      BitVec.ofNat 64 (number % 512) :: route level (number / 512)

/-- The pages which a process sees. -/
def pageCount (bytes : View UInt8) (limit : Nat) : Nat :=
  Nat.count (fun number => (bytes (number * pageSize)).isSome) limit

section Numbers

theorem part_ofNat
    {address : Nat}
    (below : address < 2 ^ 48) :
    part (BitVec.ofNat 64 address) 0 =
        BitVec.ofNat 64 (address / 4096 / 512 / 512 / 512 % 512) ∧
      part (BitVec.ofNat 64 address) 1 =
        BitVec.ofNat 64 (address / 4096 / 512 / 512 % 512) ∧
      part (BitVec.ofNat 64 address) 2 =
        BitVec.ofNat 64 (address / 4096 / 512 % 512) ∧
      part (BitVec.ofNat 64 address) 3 =
        BitVec.ofNat 64 (address / 4096 % 512) := by
  refine ⟨?_, ?_, ?_, ?_⟩ <;> apply BitVec.eq_of_toNat_eq
  · rw [TableTree.toNat_part0, BitVec.toNat_ofNat, BitVec.toNat_ofNat]
    omega
  · rw [TableTree.toNat_part1, BitVec.toNat_ofNat, BitVec.toNat_ofNat]
    omega
  · rw [TableTree.toNat_part2, BitVec.toNat_ofNat, BitVec.toNat_ofNat]
    omega
  · rw [TableTree.toNat_part3, BitVec.toNat_ofNat, BitVec.toNat_ofNat]
    omega

/-- The path of an address is given by the number of its page. -/
theorem path_ofNat
    {address : Nat}
    (below : address < 2 ^ 48)
    {level : Nat}
    (inside : level ≤ 3) :
    path (BitVec.ofNat 64 address) level =
      route level (address / 4096 / 512 ^ (4 - level)) := by
  rcases part_ofNat below with ⟨first, second, third, -⟩
  match level with
  | 0 => rfl
  | 1 =>
      simp only [path, route, first]
      congr 2
      omega
  | 2 =>
      simp only [path, route, first, second, List.cons.injEq, and_true]
      constructor <;> congr 1 <;> omega
  | 3 =>
      simp only [path, route, first, second, third, List.cons.injEq,
        and_true]
      refine ⟨?_, ?_, ?_⟩ <;> congr 1

/-- A field is put below a number. -/
theorem or_shiftLeft
    {number field bits : Nat}
    (below : field < 2 ^ 9) :
    number <<< (bits + 9) ||| field <<< bits =
      (number * 512 + field) <<< bits := by
  have inside : field * 2 ^ bits < 2 ^ (bits + 9) := by
    rw [Nat.pow_add, Nat.mul_comm]
    exact Nat.mul_lt_mul_of_pos_left below (Nat.two_pow_pos bits)
  rw [Nat.shiftLeft_eq, Nat.shiftLeft_eq, Nat.shiftLeft_eq,
    Nat.mul_comm number, ← Nat.two_pow_add_eq_or_of_lt inside, Nat.add_mul,
    Nat.pow_add]
  ring

theorem toNat_shiftLeft
    {index bits : Nat}
    (below : index < 512)
    (inside : bits ≤ 39) :
    (BitVec.ofNat 64 index <<< bits : Word).toNat = index <<< bits := by
  have power : 2 ^ bits ≤ 2 ^ 39 := Nat.pow_le_pow_right (by decide) inside
  have product : index * 2 ^ bits ≤ 512 * 2 ^ 39 :=
    Nat.mul_le_mul below.le power
  rw [BitVec.toNat_shiftLeft, BitVec.toNat_ofNat,
    Nat.mod_eq_of_lt (show index < 2 ^ 64 by omega), Nat.shiftLeft_eq]
  exact Nat.mod_eq_of_lt (by omega)

/-- The address which the innermost loop puts together. -/
theorem va_eq
    {i i1 i2 i3 : Nat}
    (first : i < 512)
    (second : i1 < 512)
    (third : i2 < 512)
    (fourth : i3 < 512) :
    (BitVec.ofNat 64 i <<< 39 ||| BitVec.ofNat 64 i1 <<< 30 |||
        BitVec.ofNat 64 i2 <<< 21 ||| BitVec.ofNat 64 i3 <<< 12 : Word) =
      BitVec.ofNat 64 ((((i * 512 + i1) * 512 + i2) * 512 + i3) * 4096) := by
  apply BitVec.eq_of_toNat_eq
  rw [BitVec.toNat_or, BitVec.toNat_or, BitVec.toNat_or,
    toNat_shiftLeft first (by decide), toNat_shiftLeft second (by decide),
    toNat_shiftLeft third (by decide), toNat_shiftLeft fourth (by decide),
    or_shiftLeft second, or_shiftLeft third, or_shiftLeft fourth,
    Nat.shiftLeft_eq, BitVec.toNat_ofNat]
  omega

end Numbers

/-! ## One page -/

/--
The pages with a number below the limit are copied, and the parent sees what
it has seen before.
-/
structure Copied
    (seen : View UInt8)
    (root : Word)
    (first : List Word → Option Word)
    (firstValues : Word → Word)
    (supply number : Nat)
    (memory : Memory) : Prop where
  pair :
    ∃ second secondValues,
      Pair memory (some root) first firstValues second secondValues
  parent : view (withRoot memory (some root)) = seen
  child :
    ∀ address,
      view memory address =
        if address / pageSize < number then seen address else none
  entries :
    ∀ va, entryOf memory va &&& pteValid ≠ 0 →
      ∃ page, IsPage page ∧ entryOf memory va = k2p page ||| pteUserData
  spent :
    supply ≤ memory.table.supply.length + 4 * pageCount seen number

section Page

variable
    {seen : View UInt8}
    {root : Word}
    {first : List Word → Option Word}
    {firstValues : Word → Word}
    {supply number : Nat}
    {memory : Memory}

theorem Copied.formed
    (copied : Copied seen root first firstValues supply number memory) :
    Formed (withRoot memory (some root)) first firstValues := by
  rcases copied.pair with ⟨_, _, pair⟩
  exact pair.one

/-- There is nothing to copy up to a higher number. -/
theorem Copied.skip
    (copied : Copied seen root first firstValues supply number memory)
    {limit : Nat}
    (above : number ≤ limit)
    (empty :
      ∀ address, number ≤ address / pageSize → address / pageSize < limit →
        seen address = none) :
    Copied seen root first firstValues supply limit memory := by
  refine ⟨copied.pair, copied.parent, ?_, copied.entries, ?_⟩
  · intro address
    rw [copied.child]
    by_cases below : address / pageSize < number
    · rw [if_pos below, if_pos (below.trans_le above)]
    · rw [if_neg below]
      by_cases inside : address / pageSize < limit
      · rw [if_pos inside, empty address (Nat.le_of_not_lt below) inside]
      · rw [if_neg inside]
  · have more : pageCount seen number ≤ pageCount seen limit :=
      Nat.count_monotone _ above
    have spent := copied.spent
    omega

theorem toNat_va
    (below : number < 2 ^ 36) :
    (BitVec.ofNat 64 (number * 4096) : Word).toNat = number * 4096 := by
  rw [BitVec.toNat_ofNat]
  omega

/-- The bytes which the copy of a page reads are what the parent sees. -/
theorem Copied.source
    (copied : Copied seen root first firstValues supply number memory)
    (below : number < 2 ^ 36)
    (valid :
      firstValues (BitVec.ofNat 64 (number * 4096)) &&& pteValid ≠ 0)
    {address : Nat}
    (same : address / pageSize = number) :
    seen address =
      some
        (memory.bytes
          (p2k (pteAddress (firstValues (BitVec.ofNat 64 (number * 4096)))) +
            BitVec.ofNat 64 (address % pageSize))) := by
  have top : userTop.toNat = 2 ^ 48 := rfl
  have inside : address < userTop.toNat := by
    unfold pageSize at same
    omega
  have agree :
      Agree 12 47 (BitVec.ofNat 64 address)
        (BitVec.ofNat 64 (number * 4096)) := by
    rw [agree_ofNat_iff inside (by omega)]
    unfold pageSize at same ⊢
    omega
  have entry := copied.formed.entryOf (BitVec.ofNat 64 address)
  rw [copied.formed.holds.congr agree] at entry
  have mapped : Mapped (withRoot memory (some root)) address := by
    rw [mapped_iff, entry]
    exact ⟨inside, valid⟩
  rw [← copied.parent, view_of_mapped mapped, entry]
  rfl

/-- A page of the parent is counted. -/
theorem Copied.pageCount_succ
    (copied : Copied seen root first firstValues supply number memory)
    (below : number < 2 ^ 36)
    (valid :
      firstValues (BitVec.ofNat 64 (number * 4096)) &&& pteValid ≠ 0) :
    pageCount seen (number + 1) = pageCount seen number + 1 := by
  have same : number * pageSize / pageSize = number :=
    Nat.mul_div_cancel number (by decide)
  have there := copied.source below valid same
  unfold pageCount
  rw [Nat.count_succ, there, if_pos Option.isSome_some]

/-- A page of the parent is copied. -/
theorem Copied.give
    (copied : Copied seen root first firstValues supply number memory)
    (below : number < 2 ^ 36)
    (valid :
      firstValues (BitVec.ofNat 64 (number * 4096)) &&& pteValid ≠ 0)
    {page : Word}
    {rest : List Word}
    (offered : memory.table.supply = page :: rest)
    (enough : 3 ≤ rest.length) :
    ∃ pte target,
      PageTable.getPte { memory.table with supply := rest }
          (BitVec.ofNat 64 (number * 4096)) true =
          .ok (some pte, target) ∧
        Copied seen root first firstValues supply (number + 1)
          (Memory.store
            { memory.fill page pageSize fun offset =>
                memory.bytes
                  (p2k
                      (pteAddress
                        (firstValues (BitVec.ofNat 64 (number * 4096)))) +
                    BitVec.ofNat 64 offset) with
              table := target }
            pte (k2p page ||| pteUserData)) := by
  have top : userTop.toNat = 2 ^ 48 := rfl
  have va := toNat_va below
  rcases copied.pair with ⟨second, secondValues, pair⟩
  rcases pair.give offered enough
    (show (BitVec.ofNat 64 (number * 4096) : Word).toNat < userTop.toNat by
      omega)
    (fun offset =>
      memory.bytes
        (p2k
            (pteAddress (firstValues (BitVec.ofNat 64 (number * 4096)))) +
          BitVec.ofNat 64 offset)) with
    ⟨pte, target, called, paired, given⟩
  have pageNumber : number * 4096 / pageSize = number :=
    Nat.mul_div_cancel number (by decide)
  refine ⟨pte, target, called, paired, ?_, ?_, ?_, ?_⟩
  · rw [given.other, copied.parent]
  · intro address
    rw [given.own, copied.child, va, pageNumber]
    by_cases same : address / pageSize = number
    · rw [if_pos same, if_pos (by omega), copied.source below valid same]
    · rw [if_neg same]
      by_cases before : address / pageSize < number
      · rw [if_pos before, if_pos (by omega)]
      · rw [if_neg before, if_neg (by omega)]
  · intro other valid
    rw [given.entries] at valid ⊢
    split_ifs at valid ⊢
    · refine ⟨page, pair.two.shape.pages page ?_, rfl⟩
      rw [offered]
      exact List.mem_cons_self
    · exact copied.entries other valid
  · have counted := copied.pageCount_succ below valid
    have spent := copied.spent
    have used := given.spent
    omega

/-- The valid bit is one of the bits of `PTE_PAGE`. -/
theorem ptePage_of_valid
    {entry : Word}
    (valid : entry &&& pteValid ≠ 0) :
    entry &&& ptePage ≠ 0 := by
  intro absent
  apply valid
  have part : pteValid = ptePage &&& pteValid := by decide
  rw [part, ← BitVec.and_assoc, absent]
  exact BitVec.zero_and

theorem Copied.copyPage
    {i i1 i2 i3 : Nat}
    (copied : Copied seen root first firstValues supply number memory)
    (first_ : i < 512)
    (second : i1 < 512)
    (third : i2 < 512)
    (fourth : i3 < 512)
    (isNumber : number = ((i * 512 + i1) * 512 + i2) * 512 + i3)
    (valid :
      firstValues (BitVec.ofNat 64 (number * 4096)) &&& pteValid ≠ 0)
    (user :
      firstValues (BitVec.ofNat 64 (number * 4096)) &&& pteUser ≠ 0)
    (normal :
      firstValues (BitVec.ofNat 64 (number * 4096)) &&& pteNormal ≠ 0)
    (enough : 4 * pageCount seen (2 ^ 36) ≤ supply) :
    ∃ after,
      ForkCopy.copyPage i i1 i2 memory
          (firstValues (BitVec.ofNat 64 (number * 4096))) i3 = .ok after ∧
        Copied seen root first firstValues supply (number + 1) after := by
  have below : number < 2 ^ 36 := by omega
  have left : 4 ≤ memory.table.supply.length := by
    have counted := copied.pageCount_succ below valid
    have more : pageCount seen (number + 1) ≤ pageCount seen (2 ^ 36) :=
      Nat.count_monotone _ (Nat.succ_le_of_lt below)
    have spent := copied.spent
    omega
  have some_ : memory.table.supply ≠ [] := by
    intro empty
    rw [empty] at left
    exact absurd left (by decide)
  rcases List.exists_cons_of_ne_nil some_ with ⟨page, rest, offered⟩
  rw [offered, List.length_cons] at left
  rcases copied.give below valid offered (by omega) with
    ⟨pte, target, called, after⟩
  refine ⟨_, ?_, after⟩
  unfold ForkCopy.copyPage
  rw [if_neg (by
    rintro (absent | absent | absent)
    · exact ptePage_of_valid valid absent
    · exact user absent
    · exact normal absent), va_eq first_ second third fourth, ← isNumber]
  unfold UserMemory.kallocPage
  rw [offered]
  dsimp only
  rw [table_fill]
  dsimp only
  rw [called]
  rfl

/-- The parent has no page where a table is missing. -/
theorem Copied.unseen
    (copied : Copied seen root first firstValues supply number memory)
    {address depth : Nat}
    (inside : depth ≤ 3)
    (absent : first (path (BitVec.ofNat 64 address) depth) = none) :
    seen address = none := by
  have shape := copied.formed.shape
  have zero := shape.unwritten _ (shape.missing inside absent)
  rw [← copied.parent]
  unfold view
  rw [copied.formed.entryOf, zero, if_neg]
  rintro ⟨-, valid⟩
  exact valid (by decide)

/-- The parent has no page where an entry is not valid. -/
theorem Copied.invalid
    (copied : Copied seen root first firstValues supply number memory)
    (below : number < 2 ^ 36)
    (invalid :
      ¬ firstValues (BitVec.ofNat 64 (number * 4096)) &&& pteValid ≠ 0)
    {address : Nat}
    (same : address / pageSize = number) :
    seen address = none := by
  have top : userTop.toNat = 2 ^ 48 := rfl
  have agree :
      Agree 12 47 (BitVec.ofNat 64 address)
        (BitVec.ofNat 64 (number * 4096)) := by
    unfold pageSize at same
    rw [agree_ofNat_iff (by omega) (by omega)]
    unfold pageSize
    omega
  rw [← copied.parent]
  unfold view
  rw [copied.formed.entryOf, copied.formed.holds.congr agree, if_neg]
  exact fun both => invalid both.2

end Page

/-! ## The loops go through the pages -/

/-- A loop over a table, with what holds before each entry. -/
theorem visit_of_step
    {pt : Word}
    {body : Memory → Word → Nat → Except Halt Memory}
    (before : Nat → Memory → Prop)
    (step :
      ∀ i < 512, ∀ memory, before i memory →
        ∃ after,
          (if memory.table.memory (entryAddress pt (BitVec.ofNat 64 i)) &&&
              pteValid ≠ 0 then
            body memory
              (memory.table.memory (entryAddress pt (BitVec.ofNat 64 i))) i
          else
            .ok memory) = .ok after ∧
            before (i + 1) after)
    {memory : Memory}
    (start : before 0 memory) :
    ∃ after, visit pt body memory = .ok after ∧ before 512 after := by
  unfold visit nPtePerTable
  have all :
      ∀ count ≤ 512,
        ∃ after,
          (List.range count).foldlM
              (fun memory i =>
                let entry :=
                  memory.table.memory (entryAddress pt (BitVec.ofNat 64 i))
                if entry &&& pteValid ≠ 0 then body memory entry i
                else .ok memory)
              memory = .ok after ∧
            before count after := by
    intro count
    induction count with
    | zero => exact fun _ => ⟨memory, rfl, start⟩
    | succ count ih =>
        intro inside
        rcases ih (Nat.le_of_succ_le inside) with ⟨middle, ran, held⟩
        rcases step count inside middle held with ⟨after, taken, next⟩
        refine ⟨after, ?_, next⟩
        rw [List.range_succ, List.foldlM_append, ran, ok_bind,
          List.foldlM_cons]
        dsimp only
        rw [taken, ok_bind, List.foldlM_nil]
        rfl
  exact all 512 le_rfl

section Loops

variable
    {seen : View UInt8}
    {root : Word}
    {first : List Word → Option Word}
    {firstValues : Word → Word}
    {supply : Nat}
    {memory : Memory}
    {table : Word}

theorem route_succ
    (level number : Nat)
    {index : Nat}
    (below : index < 512) :
    route (level + 1) (number * 512 + index) =
      BitVec.ofNat 64 index :: route level number := by
  have last : (number * 512 + index) % 512 = index := by omega
  have rest : (number * 512 + index) / 512 = number := by omega
  unfold route
  rw [last, rest]
  cases level <;> rfl

/-- The pages below an entry of an inner table have the path of the entry. -/
theorem path_of_between
    {level number address : Nat}
    (inside : level ≤ 3)
    (bound : (number + 1) * 512 ^ (4 - level) ≤ 2 ^ 36)
    (left : number * 512 ^ (4 - level) ≤ address / pageSize)
    (right : address / pageSize < (number + 1) * 512 ^ (4 - level)) :
    path (BitVec.ofNat 64 address) level = route level number := by
  have below : address < 2 ^ 48 := by
    have small := right.trans_le bound
    unfold pageSize at small
    omega
  rw [path_ofNat below inside]
  congr 1
  exact Nat.div_eq_of_lt_le left right

/-- A flag of an entry is set beside any address. -/
theorem flag_ne_zero
    {flags flag : Word}
    (inside : flags &&& flag ≠ 0)
    (physical : Word) :
    (physical ||| flags) &&& flag ≠ 0 := by
  intro absent
  rw [BitVec.and_or_distrib_right] at absent
  exact inside (BitVec.or_eq_zero_iff.mp absent).2

/-- A loop over an inner table copies the pages below it. -/
theorem visit_inner
    {level number : Nat}
    (inside : level < 3)
    (bound : (number * 512 + 512) * 512 ^ (3 - level) ≤ 2 ^ 36)
    (here : first (route level number) = some table)
    {next : Nat → Word → Memory → Except Halt Memory}
    (each :
      ∀ i < 512, ∀ child memory,
        first (route (level + 1) (number * 512 + i)) = some child →
          Copied seen root first firstValues supply
            ((number * 512 + i) * 512 ^ (3 - level)) memory →
            ∃ after,
              next i child memory = .ok after ∧
                Copied seen root first firstValues supply
                  ((number * 512 + (i + 1)) * 512 ^ (3 - level)) after)
    (copied :
      Copied seen root first firstValues supply
        (number * 512 * 512 ^ (3 - level)) memory) :
    ∃ after,
      visit table
          (fun memory entry i =>
            descend entry fun child => next i child memory)
          memory = .ok after ∧
        Copied seen root first firstValues supply
          ((number * 512 + 512) * 512 ^ (3 - level)) after := by
  apply visit_of_step
    fun i memory =>
      Copied seen root first firstValues supply
        ((number * 512 + i) * 512 ^ (3 - level)) memory
  · intro i below memory copied
    have shape := copied.formed.shape
    have power : 0 < 512 ^ (3 - level) := Nat.pow_pos (by decide)
    have within :
        (number * 512 + (i + 1)) * 512 ^ (3 - level) ≤ 2 ^ 36 := by
      have order : number * 512 + (i + 1) ≤ number * 512 + 512 := by omega
      exact le_trans (Nat.mul_le_mul_right _ order) bound
    have more :
        (number * 512 + i) * 512 ^ (3 - level) <
          (number * 512 + (i + 1)) * 512 ^ (3 - level) :=
      Nat.mul_lt_mul_of_pos_right (by omega) power
    have isPath :
        ∀ address,
          (number * 512 + i) * 512 ^ (3 - level) ≤ address / pageSize →
            address / pageSize < (number * 512 + (i + 1)) * 512 ^ (3 - level) →
              path (BitVec.ofNat 64 address) (level + 1) =
                route (level + 1) (number * 512 + i) := by
      have exponent : 4 - (level + 1) = 3 - level := by omega
      intro address left right
      apply path_of_between (Nat.succ_le_of_lt inside)
      · rw [exponent, Nat.add_assoc]
        exact within
      · rw [exponent]
        exact left
      · rw [exponent, Nat.add_assoc]
        exact right
    have isIndex : (BitVec.ofNat 64 i : Word).toNat < 512 := by
      rw [BitVec.toNat_ofNat]
      omega
    have isRoute := route_succ level number below
    have entry :
        memory.table.memory (entryAddress table (BitVec.ofNat 64 i)) =
          encode (first (route (level + 1) (number * 512 + i))) := by
      have page :
          (number * 512 + i) * 512 ^ (3 - level) * pageSize / pageSize =
            (number * 512 + i) * 512 ^ (3 - level) :=
        Nat.mul_div_cancel _ (by decide)
      have whole :=
        isPath ((number * 512 + i) * 512 ^ (3 - level) * pageSize)
          page.ge (page.trans_lt more)
      rw [isRoute] at whole ⊢
      have parent := List.tail_eq_of_cons_eq whole
      rw [← parent] at here ⊢
      have child := TableTree.child shape inside here isIndex
      exact child
    rw [entry]
    cases found : first (route (level + 1) (number * 512 + i)) with
    | none =>
        have zero : ¬ encode none &&& pteValid ≠ 0 := by decide
        rw [if_neg zero]
        refine ⟨memory, rfl, copied.skip more.le ?_⟩
        intro address left right
        apply copied.unseen (Nat.succ_le_of_lt inside)
        rw [isPath address left right]
        exact found
    | some child =>
        have isPage := (shape.used _ _ found).1
        rcases each i below child memory found copied with
          ⟨after, ran, copied⟩
        refine ⟨after, ?_, copied⟩
        unfold descend encode
        dsimp only
        rw [if_pos (valid_pteTable _), if_pos (flag_ne_zero (by decide) _),
          follow isPage]
        exact ran
  · rw [Nat.add_zero]
    exact copied

theorem index_lt
    {number limit index : Nat}
    (bound : number < limit)
    (below : index < 512) :
    number * 512 + index < limit * 512 := by
  omega

/-- The entries of a last table have the values of the page directory. -/
theorem Copied.leaf
    {limit number i3 : Nat}
    (copied : Copied seen root first firstValues supply limit memory)
    (bound : number < 2 ^ 27)
    (below : i3 < 512)
    (here : first (route 3 number) = some table) :
    memory.table.memory (entryAddress table (BitVec.ofNat 64 i3)) =
      firstValues (BitVec.ofNat 64 ((number * 512 + i3) * 4096)) := by
  have address : (number * 512 + i3) * 4096 < 2 ^ 48 := by omega
  have isPath := path_ofNat address (show 3 ≤ 3 from le_rfl)
  have isPart := (part_ofNat address).2.2.2
  have isTable :
      (number * 512 + i3) * 4096 / 4096 / 512 ^ (4 - 3) = number := by
    omega
  have isIndex : (number * 512 + i3) * 4096 / 4096 % 512 = i3 := by omega
  rw [isTable] at isPath
  rw [isIndex] at isPart
  rw [← isPath] at here
  rw [← isPart]
  have leaf := copied.formed.shape.leaf _ table here
  exact leaf

/-- A loop over a last table copies the pages of its entries. -/
theorem visit_leaf
    {i i1 i2 : Nat}
    (firstBelow : i < 512)
    (secondBelow : i1 < 512)
    (thirdBelow : i2 < 512)
    (here : first (route 3 ((i * 512 + i1) * 512 + i2)) = some table)
    (plain :
      ∀ va, firstValues va &&& pteValid ≠ 0 →
        firstValues va &&& pteUser ≠ 0 ∧ firstValues va &&& pteNormal ≠ 0)
    (enough : 4 * pageCount seen (2 ^ 36) ≤ supply)
    (copied :
      Copied seen root first firstValues supply
        (((i * 512 + i1) * 512 + i2) * 512) memory) :
    ∃ after,
      visit table (copyPage i i1 i2) memory = .ok after ∧
        Copied seen root first firstValues supply
          (((i * 512 + i1) * 512 + i2) * 512 + 512) after := by
  apply visit_of_step
    fun i3 memory =>
      Copied seen root first firstValues supply
        (((i * 512 + i1) * 512 + i2) * 512 + i3) memory
  · intro i3 below memory copied
    have bound : (i * 512 + i1) * 512 + i2 < 512 * 512 * 512 :=
      index_lt (index_lt firstBelow secondBelow) thirdBelow
    have inside := index_lt bound below
    rw [copied.leaf bound below here,
      ← Nat.add_assoc (((i * 512 + i1) * 512 + i2) * 512) i3 1]
    by_cases valid :
        firstValues
            (BitVec.ofNat 64
              ((((i * 512 + i1) * 512 + i2) * 512 + i3) * 4096)) &&&
          pteValid ≠ 0
    · rw [if_pos valid]
      exact copied.copyPage firstBelow secondBelow thirdBelow below rfl valid
        (plain _ valid).1 (plain _ valid).2 enough
    · rw [if_neg valid]
      refine ⟨memory, rfl, copied.skip (Nat.le_succ _) ?_⟩
      intro address left right
      exact copied.invalid inside valid
        (Nat.le_antisymm (Nat.le_of_lt_succ right) left)
  · rw [Nat.add_zero]
    exact copied

/-- The pages below an entry are those of the table it points to. -/
theorem pages_below
    (level number : Nat)
    (inside : level < 3) :
    number * 512 ^ (3 - level) =
        number * 512 * 512 ^ (3 - (level + 1)) ∧
      (number + 1) * 512 ^ (3 - level) =
        (number * 512 + 512) * 512 ^ (3 - (level + 1)) := by
  have power : 512 ^ (3 - level) = 512 * 512 ^ (3 - (level + 1)) := by
    rw [← Nat.pow_succ']
    congr 1
    omega
  rw [power, ← Nat.mul_assoc, ← Nat.mul_assoc, Nat.succ_mul]
  exact ⟨rfl, rfl⟩

/-- The loops copy all pages. -/
theorem copyTables_copied
    (here : first [] = some root)
    (plain :
      ∀ va, firstValues va &&& pteValid ≠ 0 →
        firstValues va &&& pteUser ≠ 0 ∧ firstValues va &&& pteNormal ≠ 0)
    (enough : 4 * pageCount seen (2 ^ 36) ≤ supply)
    (copied : Copied seen root first firstValues supply 0 memory) :
    ∃ after,
      copyTables root memory = .ok after ∧
        Copied seen root first firstValues supply (2 ^ 36) after := by
  have start : 0 * 512 * 512 ^ (3 - 0) = 0 := by decide
  have finish : (0 * 512 + 512) * 512 ^ (3 - 0) = 2 ^ 36 := by decide
  rw [← start] at copied
  rw [← finish]
  unfold copyTables
  refine visit_inner (by decide) finish.le here ?_ copied
  intro i firstBelow pgt1 memory firstHere copied
  have firstRoute (index : Nat) : 0 * 512 + index = index := by
    rw [Nat.zero_mul, Nat.zero_add]
  rw [firstRoute i] at firstHere copied
  rw [firstRoute (i + 1)]
  rcases pages_below 0 i (by decide) with ⟨start, finish⟩
  have firstBound : (i * 512 + 512) * 512 ^ (3 - 1) ≤ 2 ^ 36 := by
    rw [← finish]
    exact Nat.mul_le_mul_right (512 ^ 3) (Nat.succ_le_of_lt firstBelow)
  rw [start] at copied
  rw [finish]
  refine visit_inner (by decide) firstBound firstHere ?_ copied
  intro i1 secondBelow pgt2 memory secondHere copied
  rcases pages_below 1 (i * 512 + i1) (by decide) with ⟨start, finish⟩
  have secondBound :
      ((i * 512 + i1) * 512 + 512) * 512 ^ (3 - 2) ≤ 2 ^ 36 := by
    rw [← finish]
    exact Nat.mul_le_mul_right (512 ^ 2)
      (Nat.succ_le_of_lt (index_lt firstBelow secondBelow))
  rw [start] at copied
  rw [← Nat.add_assoc (i * 512) i1 1, finish]
  refine visit_inner (by decide) secondBound secondHere ?_ copied
  intro i2 thirdBelow pgt3 memory thirdHere copied
  rcases pages_below 2 ((i * 512 + i1) * 512 + i2) (by decide) with
    ⟨start, finish⟩
  have one : 512 ^ (3 - (2 + 1)) = 1 := by decide
  rw [one, Nat.mul_one] at start finish
  rw [start] at copied
  rw [← Nat.add_assoc ((i * 512 + i1) * 512) i2 1, finish]
  exact visit_leaf firstBelow secondBelow thirdBelow thirdHere plain enough
    copied

end Loops

/-! ## The whole copy -/

/-- The valid entries are for pages of a user, with the usual attribute. -/
def Plain (memory : Memory) : Prop :=
  ∀ va, entryOf memory va &&& pteValid ≠ 0 →
    entryOf memory va &&& pteUser ≠ 0 ∧
      entryOf memory va &&& pteNormal ≠ 0

/-- The child has the memory of its parent, and shares nothing with it. -/
structure Forked (memory after : Memory) : Prop where
  child : view after = view memory
  parent : view (withRoot after memory.table.pt) = view memory
  /-- The child can write to all of its pages. -/
  entries :
    ∀ va, entryOf after va &&& pteValid ≠ 0 →
      ∃ page, IsPage page ∧ entryOf after va = k2p page ||| pteUserData
  /-- Each of them sees its own writes only, whatever their order is. -/
  apart :
    ∀ writes,
      (∀ side address byte, (side, address, byte) ∈ writes →
        view memory address ≠ none) →
        ∃ last,
          writeAll memory.table.pt writes after = some last ∧
            ∀ side,
              sight last memory.table.pt side =
                written side writes (view memory)

section Whole

variable
    {memory : Memory}
    {tables : List Word → Option Word}
    {values : Word → Word}

/-- The parent and the empty page directory of the child have nothing in common. -/
theorem pair_initPgdir
    (formed : Formed memory tables values)
    {table : PageTable.State}
    (made :
      initPgdir memory.table.memory memory.table.supply = .ok table) :
    memory.table.supply.length = table.supply.length + 1 ∧
      ∃ page,
        Pair { memory with table := table } memory.table.pt tables values
          (onlyRoot page) fun _ => 0 := by
  have invalid : ¬ (0 : Word) &&& pteValid ≠ 0 := by decide
  have shape := formed.shape
  rcases shape_initPgdir shape.pages shape.nodup made with
    ⟨page, rest, all, left, new⟩
  have member : page ∈ memory.table.supply := by
    rw [all]
    exact List.mem_cons_self
  have isPage := shape.pages page member
  have sublist : table.supply.Sublist memory.table.supply := by
    rw [all, left]
    exact List.sublist_cons_self page rest
  unfold initPgdir at made
  rcases of_bind made with ⟨⟨taken, middle⟩, called, made⟩
  cases made
  rcases newTable_eq called with ⟨others, offered, rfl⟩
  have same : page = taken := by
    rw [all] at offered
    exact List.head_eq_of_cons_eq offered
  subst same
  refine ⟨?_, page, ⟨?_, formed.distinct, ?_, formed.apart⟩,
    ⟨new, fun _ _ valid => absurd valid invalid,
      fun _ valid => absurd valid invalid,
      fun _ valid => absurd valid invalid⟩, ?_, ?_⟩
  · rw [all, left, List.length_cons]
  · refine shape_of_entries shape rfl sublist ?_
    intro route other found index below
    have isTable := shape.used route other found
    apply if_neg
    rw [inPage_entryAddress isPage isTable.1 below]
    rintro rfl
    exact isTable.2 member
  · intro va valid unused
    exact formed.unused va valid (sublist.subset unused)
  · intro route other found
    have isTable := shape.used route other found
    refine ⟨isTable.1, fun unused => isTable.2 (sublist.subset unused), ?_,
      fun _ valid => absurd valid invalid⟩
    intro another there
    rw [(onlyRoot_eq_some there).2] at isTable
    exact isTable.2 member
  · intro va valid
    refine ⟨isPage_pteAddress _,
      fun unused => formed.unused va valid (sublist.subset unused), ?_,
      fun _ valid => absurd valid invalid⟩
    intro another there
    have unused := formed.unused va valid
    rw [(onlyRoot_eq_some there).2] at unused
    exact unused member

end Whole

/-- Pages are counted up to the last one which is there. -/
theorem pageCount_le_one
    {seen : View UInt8}
    (single : ∀ number, 0 < number → seen (number * pageSize) = none)
    (limit : Nat) :
    pageCount seen limit ≤ 1 := by
  unfold pageCount
  cases limit with
  | zero => exact Nat.zero_le 1
  | succ limit =>
      have rest :
          Nat.count
            (fun number => (seen ((number + 1) * pageSize)).isSome) limit =
            0 := by
        apply Nat.count_of_forall_not
        intro number _ there
        rw [single (number + 1) (Nat.succ_pos number)] at there
        cases there
      rw [Nat.count_succ', rest]
      split_ifs <;> decide

/-- A process with one page which is full of one byte. -/
theorem exists_onePage (byte : UInt8) :
    ∃ memory,
      Distinct memory ∧ Plain memory ∧
        6 ≤ memory.table.supply.length ∧
        ∀ address,
          view memory address =
            if address / pageSize = 0 then some byte else none := by
  rcases exists_new (show 0 < 12 by decide) (by decide) (fun _ => 0)
    (fun _ => byte) with ⟨state, -, length, ⟨tables, values, formed⟩, -⟩
  have made :
      ∃ table, initPgdir state.memory state.supply = .ok table := by
    unfold initPgdir newTable
    cases supply : state.supply with
    | nil =>
        rw [supply] at length
        exact absurd length (by decide)
    | cons page rest => exact ⟨_, rfl⟩
  rcases made with ⟨table, made⟩
  rcases pair_initPgdir formed made with ⟨left, root, pair⟩
  dsimp only at left
  have offered : table.supply ≠ [] := by
    intro empty
    rw [empty] at left
    simp only [List.length_nil] at left
    omega
  rcases List.exists_cons_of_ne_nil offered with ⟨page, rest, offered⟩
  have count := congrArg List.length offered
  rw [List.length_cons] at count
  rcases pair.give offered (by omega) (show (0 : Word).toNat < _ by decide)
    (fun _ => byte) with ⟨pte, target, -, ⟨more, entries, given⟩, gives⟩
  refine ⟨_, ⟨more, entries, given.two⟩, ?_, ?_, ?_⟩
  · intro va valid
    rw [gives.entries, pair.two.entryOf] at valid ⊢
    split_ifs at valid ⊢
    · exact ⟨flag_ne_zero (by decide) _, flag_ne_zero (by decide) _⟩
    · exact absurd valid (by decide)
  · have spent : table.supply.length ≤ target.supply.length + 4 :=
      gives.spent
    have enough : 6 ≤ target.supply.length := by omega
    exact enough
  · intro address
    rw [gives.own]
    have zero : (0 : Word).toNat / pageSize = 0 := by decide
    rw [zero]
    split_ifs
    · rfl
    · unfold view
      rw [pair.two.entryOf, if_neg (fun both => both.2 (by decide))]

end FudanOS.Kernel.ForkCopy
