import FudanOS.Kernel.UserMemory

/-!
# Copies to user memory

`copyout` of `kernel/pt.c`: a loop over the pages of a range, which takes a
page from `kalloc_page` where none is mapped.  Tables and pages come from one
supply; where a call needs a page and there is none, the model has no result.
-/

namespace FudanOS.Kernel.Copyout

open FudanOS.Aarch64.Mmu
open FudanOS.Library.BitFields
open FudanOS.Library.Views
open FudanOS.Kernel.PageTable
open FudanOS.Kernel.Paging
open FudanOS.Kernel.UserMemory

/-! ## The function -/

/-- `PAGE_SIZE`, as an operand of 64 bits -/
def pageBytes : Word := 4096

/-- `MIN` -/
def minimum (a b : Word) : Word :=
  if a ≤ b then a else b

/-- What is copied: the bytes from `p` on, or zeros when `p` is `NULL`. -/
def source (p : Option (Nat → UInt8)) : Nat → UInt8 :=
  p.getD fun _ => 0

/-- The page of `va`, found or mapped.  `none` where `get_pte` has no entry. -/
def pageFor (memory : Memory) (va : Word) :
    Except Unit (Option Word × Memory) := do
  let (pte, table) ← PageTable.getPte memory.table va true
  let memory := { memory with table := table }
  let some pte := pte | return (none, memory)
  let entry := memory.table.memory pte
  if entry &&& pteValid ≠ 0 then
    return (some (frame entry), memory)
  else
    let (page, memory) ← UserMemory.kallocPage memory
    return (some page, memory.store pte (k2p page ||| pteUserData))

/-- The loop of `copyout`, with a bound on its iterations. -/
def copyoutLoop :
    Nat → Memory → Word → Option (Nat → UInt8) → Word →
      Except Unit (Int × Memory)
  | 0, _, _, _, _ => .error ()
  | fuel + 1, memory, va, p, len =>
      if 0 < len then do
        let pgoff := va % pageBytes
        let (page, memory) ← pageFor memory va
        let some page := page | return (-1, memory)
        let n := minimum len (pageBytes - pgoff)
        let memory := memory.fill (page + pgoff) n.toNat (source p)
        copyoutLoop fuel memory (va + n)
          (p.map fun p offset => p (n.toNat + offset)) (len - n)
      else
        .ok (0, memory)

/-- `copyout(pd, va, p, len)` -/
def copyout (memory : Memory) (va : Word) (p : Option (Nat → UInt8))
    (len : Word) : Except Unit (Int × Memory) :=
  if userTop < va + len then
    .ok (-1, memory)
  else
    copyoutLoop (len.toNat + 1) memory va p len

/-! ## One page -/

/-- The pages of a range. -/
def pagesOf (start length : Nat) : Nat :=
  if length = 0 then 0 else (start % 4096 + length + 4095) / 4096

section Page

variable
    {memory : Memory}
    {tables : List Word → Option Word}
    {values : Word → Word}
    {va : Word}

/-- Four free pages are enough for the entry of an address and its page. -/
theorem pageFor_provides
    (formed : Formed memory tables values)
    (below : va.toNat < userTop.toNat)
    (enough : 4 ≤ memory.table.supply.length) :
    ∃ page after,
      pageFor memory va = .ok (some page, after) ∧
        Provides memory va page after := by
  have rooted : memory.table.pt ≠ none := by
    rw [formed.shape.root]
    exact formed.shape.rooted
  rcases getPte_returns va true rooted (fun _ => by omega) with
    ⟨pte, table, called, left⟩
  rcases formed.getPte called with ⟨more, last, found, here, rfl, -⟩
  have entry := found.shape.leaf va last here
  by_cases valid : values va &&& pteValid ≠ 0
  · have isEntry : entryOf { memory with table := table } va = values va :=
      found.entryOf va
    refine ⟨frame (values va), { memory with table := table }, ?_, ?_⟩
    · unfold pageFor
      rw [called]
      change (if table.memory _ &&& pteValid ≠ 0 then _ else _) = _
      rw [entry, if_pos valid]
      rfl
    · refine ⟨⟨more, values, found⟩, ?_, ?_, rfl, ?_, ?_, ?_⟩
      · rw [mapped_iff, BitVec.ofNat_toNat, BitVec.setWidth_eq, isEntry]
        exact ⟨below, valid⟩
      · rw [isEntry]
      · intro address _
        rw [found.entryOf, formed.entryOf]
      · intro address mapped
        rw [mapped_iff, found.entryOf] at mapped
        rw [mapped_iff, formed.entryOf]
        exact Or.inl mapped
      · change _ ≤ table.supply.length + 4
        omega
  · have offered : table.supply ≠ [] := by
      intro empty
      rw [empty] at left
      simp only [List.length_nil] at left
      omega
    rcases List.exists_cons_of_ne_nil offered with ⟨page, rest, offered⟩
    rcases found.take offered with ⟨reduced, fresh⟩
    have count := congrArg List.length offered
    rw [List.length_cons] at count
    have provides :=
      formed.provides below valid reduced fresh here
        (show _ ≤ rest.length + 4 by omega)
    refine ⟨page, _, ?_, provides⟩
    unfold pageFor
    rw [called]
    change (if table.memory _ &&& pteValid ≠ 0 then _ else
      (UserMemory.kallocPage { memory with table := table } >>= _)) = _
    rw [entry, if_neg valid]
    unfold UserMemory.kallocPage
    dsimp only
    rw [offered]
    rfl

end Page

/-! ## The loop -/

section Loop

variable
    {memory : Memory}
    {va len : Word}
    {p : Option (Nat → UInt8)}

/-- The bytes which one iteration copies. -/
theorem toNat_chunk
    (va len : Word) :
    (minimum len (pageBytes - va % pageBytes)).toNat =
      if len.toNat ≤ 4096 - va.toNat % 4096 then
        len.toNat
      else
        4096 - va.toNat % 4096 := by
  have left :
      (pageBytes - va % pageBytes).toNat = 4096 - va.toNat % 4096 := by
    unfold pageBytes
    rw [BitVec.toNat_sub, BitVec.toNat_umod]
    change (2 ^ 64 - va.toNat % 4096 + 4096) % 2 ^ 64 = _
    omega
  unfold minimum
  simp only [BitVec.le_def, left]
  split_ifs
  · rfl
  · exact left

theorem source_map
    (p : Option (Nat → UInt8))
    (count : Nat) :
    source (p.map fun p offset => p (count + offset)) =
      fun offset => source p (count + offset) := by
  cases p <;> rfl

theorem copyoutLoop_writes
    (fuel : Nat)
    (distinct : Distinct memory)
    (inside : va.toNat + len.toNat ≤ userTop.toNat)
    (rounds : len.toNat < fuel)
    (enough : 4 * pagesOf va.toNat len.toNat ≤ memory.table.supply.length) :
    ∃ after,
      copyoutLoop fuel memory va p len = .ok (0, after) ∧ Distinct after ∧
        Writes memory va.toNat len.toNat (source p) after ∧
        memory.table.supply.length ≤
          after.table.supply.length + 4 * pagesOf va.toNat len.toNat := by
  have top : userTop.toNat = 2 ^ 48 := rfl
  induction fuel generalizing memory va p len with
  | zero => exact absurd rounds (Nat.not_lt_zero _)
  | succ fuel ih =>
      unfold copyoutLoop
      by_cases some_ : 0 < len
      · have positive : 0 < len.toNat := some_
        have chunk := toNat_chunk va len
        generalize size : minimum len (pageBytes - va % pageBytes) = n
          at chunk
        have offset :
            va % pageBytes = BitVec.ofNat 64 (va.toNat % pageSize) := by
          apply BitVec.eq_of_toNat_eq
          rw [BitVec.toNat_umod, BitVec.toNat_ofNat]
          change va.toNat % 4096 = va.toNat % 4096 % 2 ^ 64
          omega
        have pages :
            pagesOf va.toNat len.toNat =
              1 + pagesOf (va.toNat + n.toNat) (len.toNat - n.toNat) := by
          unfold pagesOf
          split_ifs at chunk ⊢ <;> omega
        rcases distinct with ⟨tables, values, formed⟩
        rcases @pageFor_provides _ _ _ va formed (by omega) (by omega) with
          ⟨page, middle, called, provides⟩
        rcases provides.distinct with ⟨more, entries, mapped⟩
        have below : va.toNat % pageSize + n.toNat ≤ pageSize := by
          unfold pageSize
          split_ifs at chunk <;> omega
        have address : (va + n).toNat = va.toNat + n.toNat := by
          rw [BitVec.toNat_add]
          split_ifs at chunk <;> omega
        have remaining : (len - n).toNat = len.toNat - n.toNat := by
          rw [BitVec.toNat_sub_of_le]
          rw [BitVec.le_def]
          split_ifs at chunk <;> omega
        have start : (BitVec.ofNat 64 va.toNat : Word) = va := by
          rw [BitVec.ofNat_toNat, BitVec.setWidth_eq]
        have writes := mapped.fill provides.mapped below (source p)
        rw [start, ← provides.points, ← offset] at writes
        have filled :
            Distinct
              (middle.fill (page + va % pageBytes) n.toNat (source p)) :=
          ⟨more, entries, mapped.bytes (table_fill ..)⟩
        have spent := provides.spent
        rcases
          @ih _ (va + n) (len - n)
            (p.map fun p offset => p (n.toNat + offset)) filled
            (by
              rw [address, remaining]
              split_ifs at chunk <;> omega)
            (by
              rw [remaining]
              split_ifs at chunk <;> omega)
            (by
              rw [address, remaining, table_fill]
              omega) with
          ⟨after, ran, distinct, rest, left⟩
        rw [address, remaining, source_map] at rest
        rw [address, remaining, table_fill] at left
        have all := (provides.writes (by split_ifs at chunk <;> omega)
          writes).append rest
        have whole : n.toNat + (len.toNat - n.toNat) = len.toNat := by
          split_ifs at chunk <;> omega
        rw [whole] at all
        refine ⟨after, ?_, distinct, all, by omega⟩
        rw [if_pos some_, called]
        subst size
        exact ran
      · have none_ : len.toNat = 0 := by
          have : ¬ 0 < len.toNat := some_
          omega
        rw [if_neg some_, none_]
        refine ⟨memory, rfl, distinct, Writes.nil memory _ _, ?_⟩
        exact Nat.le_add_right _ _

end Loop

/-! ## The calls -/

/--
`copyout` writes its range and no other byte, and maps the pages of the range.
Past `USERTOP` it changes nothing.  `kalloc_page` has a page and three tables
for each page of the range.
-/
theorem copyout_writes
    (memory : Memory)
    (distinct : Distinct memory)
    (va : Word)
    (p : Option (Nat → UInt8))
    (len : Word) :
    (va.toNat + len.toNat ≤ userTop.toNat →
      4 * pagesOf va.toNat len.toNat ≤ memory.table.supply.length →
        ∃ after,
          copyout memory va p len = .ok (0, after) ∧ Distinct after ∧
            Writes memory va.toNat len.toNat (source p) after ∧
            memory.table.supply.length ≤
              after.table.supply.length +
                4 * pagesOf va.toNat len.toNat) ∧
      (userTop < va + len → copyout memory va p len = .ok (-1, memory)) := by
  have top : userTop.toNat = 2 ^ 48 := rfl
  constructor
  · intro inside enough
    rcases copyoutLoop_writes (p := p) (len.toNat + 1) distinct inside
      (Nat.lt_succ_self _) enough with ⟨after, ran, result⟩
    refine ⟨after, ?_, result⟩
    unfold copyout
    rw [if_neg, ran]
    rw [BitVec.lt_def, BitVec.toNat_add]
    omega
  · intro beyond
    unfold copyout
    exact if_pos beyond

/-- Five bytes across the end of a page, and a range past `USERTOP`. -/
theorem copyout_writes_two_pages :
    ∃ table after,
      initPgdir (fun _ => 0x55) (freePages 10) = .ok table ∧
        copyout { table := table, bytes := fun _ => 0xAA } 4094
            (some (contents [1, 2, 3, 4, 5])) 5 =
          .ok (0, after) ∧
        view after 4098 = some 5 ∧
        copyout { table := table, bytes := fun _ => 0xAA } userTop none 1 =
          .ok (-1, { table := table, bytes := fun _ => 0xAA }) := by
  rcases @exists_new 10 (by decide) (by decide) (fun _ => 0x55)
    (fun _ => 0xAA) with ⟨table, made, length, distinct, -⟩
  rcases
    (copyout_writes { table := table, bytes := fun _ => 0xAA } distinct 4094
      (some (contents [1, 2, 3, 4, 5])) 5).1 (by decide) (by
        change 8 ≤ table.supply.length
        omega) with
    ⟨after, ran, -, writes, -⟩
  refine ⟨table, after, made, ran, ?_, ?_⟩
  · exact writes.stores.written 4 (by decide)
  · exact
      (copyout_writes { table := table, bytes := fun _ => 0xAA } distinct
        userTop none 1).2 (by decide)

end FudanOS.Kernel.Copyout
