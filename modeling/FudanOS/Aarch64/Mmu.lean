import FudanOS.Library.BitFields

/-!
# Addresses and page table entries

The constants and macros of `aarch64/mmu.h` which the page tables use: the
conversion between kernel and physical addresses, the parts of an entry, and
the four indices into the tables which a virtual address has.
-/

namespace FudanOS.Aarch64.Mmu

open FudanOS.Library.BitFields

/-- `u64` -/
abbrev Word := BitVec 64

def pageSize : Nat := 4096

def pteValid : Word := 0x1

def pteTable : Word := 0x3

/-- `PTE_USER` -/
def pteUser : Word := 1 <<< 6

/-- `PTE_RO` -/
def pteRo : Word := 1 <<< 7

/-- `PTE_NORMAL`: `MT_NORMAL << 2`, `AF_USED` and `SH_OUTER` -/
def pteNormal : Word := 1 <<< 2 ||| 1 <<< 10 ||| 2 <<< 8

def ptePage : Word := 0x3

def pteUserData : Word := pteUser ||| pteNormal ||| ptePage

def kspaceMask : Word := 0xFFFF000000000000

/-- `K2P`: convert a kernel address into a physical address. -/
def k2p (address : Word) : Word :=
  address - kspaceMask

/-- `P2K`: convert a physical address into a kernel address. -/
def p2k (address : Word) : Word :=
  address + kspaceMask

def pteAddress (entry : Word) : Word :=
  entry &&& ~~~0xFFFF000000000FFF

def pteFlags (entry : Word) : Word :=
  entry &&& 0xFFFF000000000FFF

def vaPart0 (va : Word) : Word :=
  (va &&& 0xFF8000000000) >>> 39

def vaPart1 (va : Word) : Word :=
  (va &&& 0x7FC0000000) >>> 30

def vaPart2 (va : Word) : Word :=
  (va &&& 0x3FE00000) >>> 21

def vaPart3 (va : Word) : Word :=
  (va &&& 0x1FF000) >>> 12

/-- The address of the entry `pt[index]` of a table. -/
def entryAddress (pt index : Word) : Word :=
  pt + 8 * index

/-! ## The indices -/

section Indices

variable {left right : Word}

theorem ones_part0 (bit : Nat) :
    (0xFF8000000000 : Word).getLsbD bit = decide (39 ≤ bit ∧ bit ≤ 47) :=
  ones_of_lt (by decide) (by decide) bit

theorem ones_part1 (bit : Nat) :
    (0x7FC0000000 : Word).getLsbD bit = decide (30 ≤ bit ∧ bit ≤ 38) :=
  ones_of_lt (by decide) (by decide) bit

theorem ones_part2 (bit : Nat) :
    (0x3FE00000 : Word).getLsbD bit = decide (21 ≤ bit ∧ bit ≤ 29) :=
  ones_of_lt (by decide) (by decide) bit

theorem ones_part3 (bit : Nat) :
    (0x1FF000 : Word).getLsbD bit = decide (12 ≤ bit ∧ bit ≤ 20) :=
  ones_of_lt (by decide) (by decide) bit

/-- The first three indices are the bits 21 to 47. -/
theorem agree_tables_iff :
    Agree 21 47 left right ↔
      vaPart0 left = vaPart0 right ∧ vaPart1 left = vaPart1 right ∧
        vaPart2 left = vaPart2 right := by
  have first : vaPart0 left = vaPart0 right ↔ Agree 39 47 left right :=
    field_eq_iff ones_part0
  have second : vaPart1 left = vaPart1 right ↔ Agree 30 38 left right :=
    field_eq_iff ones_part1
  have third : vaPart2 left = vaPart2 right ↔ Agree 21 29 left right :=
    field_eq_iff ones_part2
  have above :
      Agree 30 47 left right ↔
        Agree 30 38 left right ∧ Agree 39 47 left right :=
    Agree.split (by decide) (by decide)
  have all :
      Agree 21 47 left right ↔
        Agree 21 29 left right ∧ Agree 30 47 left right :=
    Agree.split (by decide) (by decide)
  rw [first, second, third, all, above]
  constructor
  · rintro ⟨low, middle, high⟩
    exact ⟨high, middle, low⟩
  · rintro ⟨high, middle, low⟩
    exact ⟨low, middle, high⟩

/-- The four indices are the bits 12 to 47. -/
theorem agree_entries_iff :
    Agree 12 47 left right ↔
      Agree 21 47 left right ∧ vaPart3 left = vaPart3 right := by
  have last : vaPart3 left = vaPart3 right ↔ Agree 12 20 left right :=
    field_eq_iff ones_part3
  have all :
      Agree 12 47 left right ↔
        Agree 12 20 left right ∧ Agree 21 47 left right :=
    Agree.split (by decide) (by decide)
  rw [last, all]
  exact and_comm

theorem vaPart0_lt (va : Word) : (vaPart0 va).toNat < 512 :=
  field_lt ones_part0

theorem vaPart1_lt (va : Word) : (vaPart1 va).toNat < 512 :=
  field_lt ones_part1

theorem vaPart2_lt (va : Word) : (vaPart2 va).toNat < 512 :=
  field_lt ones_part2

theorem vaPart3_lt (va : Word) : (vaPart3 va).toNat < 512 :=
  field_lt ones_part3

end Indices

/-! ## Pages -/

section Pages

variable {page other index second : Word}

/-- The kernel address of a page of the physical memory. -/
def IsPage (page : Word) : Prop :=
  ∃ physical, page = p2k physical ∧ pteFlags physical = 0

theorem k2p_p2k (physical : Word) : k2p (p2k physical) = physical :=
  BitVec.add_sub_cancel physical kspaceMask

/-- An entry which points to a table is valid. -/
theorem valid_pteTable (physical : Word) :
    (physical ||| pteTable) &&& pteValid ≠ 0 := by
  intro zero
  have bit := congrArg (fun word => word.getLsbD 0) zero
  simp [pteTable, pteValid] at bit

/-- An entry for a user page is valid. -/
theorem valid_pteUserData (physical : Word) :
    (physical ||| pteUserData) &&& pteValid ≠ 0 := by
  intro zero
  have bit := congrArg (fun word => word.getLsbD 0) zero
  simp [pteUserData, pteUser, pteNormal, ptePage, pteValid] at bit

/-- Flags beside an address do not change it. -/
theorem pteAddress_or
    {physical flags : Word}
    (aligned : pteFlags physical = 0)
    (noAddress : pteAddress flags = 0) :
    pteAddress (physical ||| flags) = physical := by
  have whole : physical = pteAddress physical ||| pteFlags physical := by
    unfold pteAddress pteFlags
    rw [← BitVec.and_or_distrib_left]
    exact BitVec.and_allOnes.symm
  have distributed :
      pteAddress (physical ||| flags) =
        pteAddress physical ||| pteAddress flags :=
    BitVec.and_or_distrib_right
  rw [aligned] at whole
  rw [distributed, noAddress]
  exact whole.symm

/-- An entry which points to a table has its address. -/
theorem pteAddress_pteTable
    {physical : Word}
    (aligned : pteFlags physical = 0) :
    pteAddress (physical ||| pteTable) = physical :=
  pteAddress_or aligned (by decide)

/-- Following an entry leads back to the table it was made for. -/
theorem follow
    (isPage : IsPage page) :
    p2k (pteAddress (k2p page ||| pteTable)) = page := by
  rcases isPage with ⟨physical, rfl, aligned⟩
  rw [k2p_p2k, pteAddress_pteTable aligned]

/-- Following the entry of a user page leads back to the page. -/
theorem follow_userData
    (isPage : IsPage page) :
    p2k (pteAddress (k2p page ||| pteUserData)) = page := by
  rcases isPage with ⟨physical, rfl, aligned⟩
  rw [k2p_p2k, pteAddress_or aligned (by decide)]

/-- What an entry points to is a page. -/
theorem isPage_pteAddress (entry : Word) :
    IsPage (p2k (pteAddress entry)) := by
  refine ⟨pteAddress entry, rfl, ?_⟩
  unfold pteFlags pteAddress
  rw [BitVec.and_assoc]
  have none_ :
      ~~~(0xFFFF000000000FFF : Word) &&& 0xFFFF000000000FFF = 0 := by
    decide
  rw [none_]
  exact BitVec.and_zero

/-- A page starts at a multiple of its size, and ends below `2 ^ 64`. -/
theorem IsPage.bounds
    (isPage : IsPage page) :
    page.toNat % 4096 = 0 ∧ page.toNat + 4096 ≤ 2 ^ 64 := by
  rcases isPage with ⟨physical, rfl, aligned⟩
  have flag :
      ∀ bit, (0xFFFF000000000FFF : Word).getLsbD bit = true →
        physical.toNat.testBit bit = false := by
    intro bit isFlag
    have zero : (pteFlags physical).getLsbD bit = false := by
      rw [aligned]
      exact BitVec.getLsbD_zero
    unfold pteFlags at zero
    rw [BitVec.getLsbD_and, isFlag, Bool.and_true] at zero
    exact zero
  have small : physical.toNat < 2 ^ 48 := by
    apply Nat.lt_pow_two_of_testBit
    intro bit beyond
    rcases Nat.lt_or_ge bit 64 with inside | outside
    · have high :
          ∀ bit < 64, 48 ≤ bit →
            (0xFFFF000000000FFF : Word).getLsbD bit = true := by
        decide
      exact flag bit (high bit inside beyond)
    · exact BitVec.getLsbD_of_ge physical bit outside
  have multiple : physical.toNat % 2 ^ 12 = 0 := by
    apply Nat.eq_of_testBit_eq
    intro bit
    rw [Nat.testBit_mod_two_pow, Nat.zero_testBit]
    by_cases inside : bit < 12
    · have low :
          ∀ bit < 12, (0xFFFF000000000FFF : Word).getLsbD bit = true := by
        decide
      rw [flag bit (low bit inside), Bool.and_false]
    · rw [decide_eq_false inside, Bool.false_and]
  unfold p2k kspaceMask
  rw [BitVec.toNat_add]
  change (physical.toNat + 0xFFFF000000000000) % 2 ^ 64 % 4096 = 0 ∧
    (physical.toNat + 0xFFFF000000000000) % 2 ^ 64 + 4096 ≤ 2 ^ 64
  omega

/-- An aligned physical address below `2 ^ 48` has no flags. -/
theorem pteFlags_eq_zero
    {physical : Word}
    (aligned : physical.toNat % 2 ^ 12 = 0)
    (small : physical.toNat < 2 ^ 48) :
    pteFlags physical = 0 := by
  have middle :
      ∀ bit < 64, 12 ≤ bit → bit < 48 →
        (0xFFFF000000000FFF : Word).getLsbD bit = false := by
    decide
  unfold pteFlags
  apply BitVec.eq_of_getLsbD_eq
  intro bit inside
  have none_ : (0 : Word).getLsbD bit = false := BitVec.getLsbD_zero
  rw [BitVec.getLsbD_and, none_]
  by_cases low : bit < 12
  · have zero := congrArg (fun number => number.testBit bit) aligned
    rw [Nat.testBit_mod_two_pow, decide_eq_true low, Bool.true_and,
      Nat.zero_testBit] at zero
    rw [← BitVec.testBit_toNat, zero, Bool.false_and]
  · by_cases high : bit < 48
    · rw [middle bit inside (Nat.le_of_not_lt low) high, Bool.and_false]
    · have zero : physical.toNat.testBit bit = false := by
        apply Nat.testBit_lt_two_pow
        exact small.trans_le
          (Nat.pow_le_pow_right (by decide) (Nat.le_of_not_lt high))
      rw [← BitVec.testBit_toNat, zero, Bool.false_and]

/-- The entries of a page lie in it. -/
theorem toNat_entryAddress
    (isPage : IsPage page)
    (bound : index.toNat < 512) :
    (entryAddress page index).toNat = page.toNat + 8 * index.toNat := by
  have bounds := isPage.bounds
  unfold entryAddress
  rw [BitVec.toNat_add, BitVec.toNat_mul]
  change (page.toNat + 8 * index.toNat % 2 ^ 64) % 2 ^ 64 = _
  omega

/-- Different entries have different addresses. -/
theorem entryAddress_inj
    (isPage : IsPage page)
    (isOther : IsPage other)
    (bound : index.toNat < 512)
    (secondBound : second.toNat < 512)
    (same : entryAddress page index = entryAddress other second) :
    page = other ∧ index = second := by
  have equal := congrArg BitVec.toNat same
  rw [toNat_entryAddress isPage bound,
    toNat_entryAddress isOther secondBound] at equal
  have bounds := isPage.bounds
  have otherBounds := isOther.bounds
  constructor
  · apply BitVec.eq_of_toNat_eq
    omega
  · apply BitVec.eq_of_toNat_eq
    omega

/-- The address is one of the `PAGE_SIZE` bytes from `page` on. -/
def InPage (page address : Word) : Prop :=
  (address - page).toNat < pageSize

instance (page address : Word) : Decidable (InPage page address) :=
  inferInstanceAs (Decidable (_ < _))

/-- A page contains its own entries, and no entries of other pages. -/
theorem inPage_entryAddress
    (isPage : IsPage page)
    (isOther : IsPage other)
    (bound : index.toNat < 512) :
    InPage page (entryAddress other index) ↔ page = other := by
  have bounds := isPage.bounds
  have otherBounds := isOther.bounds
  have address := toNat_entryAddress isOther bound
  unfold InPage pageSize
  rw [BitVec.toNat_sub, address]
  constructor
  · intro inside
    apply BitVec.eq_of_toNat_eq
    omega
  · rintro rfl
    omega

theorem toNat_offset
    (isPage : IsPage page)
    {offset : Nat}
    (inside : offset < pageSize) :
    (page + BitVec.ofNat 64 offset).toNat = page.toNat + offset := by
  have bounds := isPage.bounds
  unfold pageSize at inside
  rw [BitVec.toNat_add, BitVec.toNat_ofNat]
  omega

theorem inPage_offset
    (page : Word)
    {offset : Nat}
    (inside : offset < pageSize) :
    InPage page (page + BitVec.ofNat 64 offset) ∧
      (page + BitVec.ofNat 64 offset - page).toNat = offset := by
  have back : (page + BitVec.ofNat 64 offset - page).toNat = offset := by
    rw [BitVec.add_comm, BitVec.add_sub_cancel, BitVec.toNat_ofNat]
    unfold pageSize at inside
    omega
  exact ⟨back.trans_lt inside, back⟩

/-- Different pages have no address in common. -/
theorem not_inPage_offset
    (isPage : IsPage page)
    (isSecond : IsPage second)
    (different : page ≠ second)
    {offset : Nat}
    (inside : offset < pageSize) :
    ¬ InPage second (page + BitVec.ofNat 64 offset) := by
  intro within
  apply different
  have address := toNat_offset isPage inside
  have bounds := isPage.bounds
  have secondBounds := isSecond.bounds
  unfold InPage at within
  unfold pageSize at within inside
  rw [BitVec.toNat_sub, address] at within
  apply BitVec.eq_of_toNat_eq
  omega

end Pages

end FudanOS.Aarch64.Mmu
