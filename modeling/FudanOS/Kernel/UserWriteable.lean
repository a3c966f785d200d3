import FudanOS.Kernel.Paging

/-!
# Buffers of user processes

`user_writeable` of `kernel/syscall.c`, with which `read`, `fstat` and
`fstatat` of `kernel/sysfile.c` test the buffer that they are given.  It goes
from block to block, adds modulo `2 ^ 64`, and finds entries by the bits 12 to
47 of an address, so some ranges pass which are not in the user's memory.
-/

namespace FudanOS.Kernel.UserWriteable

open FudanOS.Aarch64.Mmu
open FudanOS.Library.BitFields
open FudanOS.Library.Runs
open FudanOS.Kernel.PageTable
open FudanOS.Kernel.Paging

/-! ## The function -/

/-- `BLOCK_SIZE` -/
def blockSize : Word := 512

/--
The loop of `user_writeable` from the address `i` on; `none` if it has not
ended after so many iterations.
-/
def userWriteableFrom (state : State) (end_ : Word) :
    Nat → Word → Option Bool
  | 0, _ => none
  | fuel + 1, i =>
      if i < end_ then
        match PageTable.getPte state i false with
        | .ok (some pte, state) =>
            if state.memory pte &&& pteRo ≠ 0 then
              some false
            else
              userWriteableFrom state end_ fuel
                ((i / blockSize + 1) * blockSize)
        | _ => some false
      else
        some true

/-- `user_writeable(start, size)` -/
def userWriteable (state : State) (start size : Word) (fuel : Nat) :
    Option Bool :=
  userWriteableFrom state (start + size) fuel start

/-! ## What the callers may expect -/

/-- `USERTOP` -/
def userTop : Nat := 2 ^ 48

/-- The entry of an address, and `none` if there is no table for it. -/
def entryOf (state : State) (va : Word) : Option Word :=
  match PageTable.getPte state va false with
  | .ok (some pte, state) => some (state.memory pte)
  | _ => none

/-- The address is in the memory of the user, and no page forbids a write. -/
structure Allows (state : State) (address : Nat) : Prop where
  below : address < userTop
  writeable :
    ∀ entry, entryOf state (BitVec.ofNat 64 address) = some entry →
      entry &&& pteValid ≠ 0 → entry &&& pteRo = 0 ∧ entry &&& pteUser ≠ 0

/-- The range does not wrap, and the user may write all of it. -/
structure Safe (state : State) (start size : Word) : Prop where
  straight : start.toNat + size.toNat < 2 ^ 64
  allows :
    ∀ address, start.toNat ≤ address →
      address < start.toNat + size.toNat → Allows state address

/-- What passes the test is safe. -/
def Protects (state : State) (start size : Word) : Prop :=
  ∀ fuel, userWriteable state start size fuel = some true →
    Safe state start size

/-- The page of an address has no table, or may be read only. -/
def Refused (state : State) (address : Nat) : Prop :=
  ∀ entry, entryOf state (BitVec.ofNat 64 address) = some entry →
    entry &&& pteRo ≠ 0

/--
The range does not wrap, and it has a page which is refused, or it ends in
the last block of all, which the loop does not get past.
-/
def Stopped (state : State) (start size : Word) : Prop :=
  start.toNat + size.toNat < 2 ^ 64 ∧ size ≠ 0 ∧
    (2 ^ 64 - 512 < start.toNat + size.toNat ∨
      ∃ address, start.toNat ≤ address ∧
        address < start.toNat + size.toNat ∧ Refused state address)

/-! ## The loop -/

section Loop

variable
    {state : State}
    {va other end_ i : Word}

/-- Addresses in one page have one entry. -/
theorem entryOf_congr
    (agree : Agree 12 47 va other) :
    entryOf state va = entryOf state other := by
  rcases agree_iff.mp agree with ⟨route, index⟩
  have parts : [part va 2, part va 1, part va 0] =
      [part other 2, part other 1, part other 0] := route
  injection parts with two parts
  injection parts with one parts
  injection parts with zero _
  have same :
      PageTable.getPte state va false =
        PageTable.getPte state other false := by
    change vaPart0 va = vaPart0 other at zero
    change vaPart1 va = vaPart1 other at one
    change vaPart2 va = vaPart2 other at two
    change vaPart3 va = vaPart3 other at index
    unfold PageTable.getPte
    rw [zero, one, two, index]
  unfold entryOf
  rw [same]

/-- One iteration, by the entry which it finds. -/
theorem userWriteableFrom_succ (fuel : Nat) :
    userWriteableFrom state end_ (fuel + 1) i =
      if i < end_ then
        match entryOf state i with
        | none => some false
        | some entry =>
            if entry &&& pteRo ≠ 0 then
              some false
            else
              userWriteableFrom state end_ fuel
                ((i / blockSize + 1) * blockSize)
      else
        some true := by
  rcases getPte_false state i with ⟨pte, always⟩
  have called : PageTable.getPte state i false = .ok (pte, state) :=
    always state.supply
  unfold entryOf
  rw [userWriteableFrom, called]
  cases pte with
  | none => rfl
  | some pte => rfl

theorem toNat_next (i : Word) :
    ((i / blockSize + 1) * blockSize).toNat =
      (i.toNat / 512 + 1) * 512 % 2 ^ 64 := by
  rw [BitVec.toNat_mul, BitVec.toNat_add, BitVec.toNat_udiv]
  change (i.toNat / 512 + 1) % 2 ^ 64 * 512 % 2 ^ 64 = _
  omega

theorem same_page
    {address : Nat}
    (above : i.toNat ≤ address)
    (near : address < (i.toNat / 512 + 1) * 512)
    (bounded : address < 2 ^ 64) :
    entryOf state (BitVec.ofNat 64 address) = entryOf state i := by
  apply entryOf_congr
  apply agree_iff_pageOf.mpr
  unfold pageOf
  rw [BitVec.toNat_ofNat]
  omega

/-- A range which passes has a writeable page at each of its addresses. -/
theorem passes
    {fuel : Nat}
    (passed : userWriteableFrom state end_ fuel i = some true)
    (inside : i < end_) :
    end_.toNat ≤ 2 ^ 64 - 512 ∧
      ∀ address, i.toNat ≤ address → address < end_.toNat →
        ¬ Refused state address := by
  induction fuel generalizing i with
  | zero => cases passed
  | succ fuel ih =>
      have below := BitVec.lt_def.mp inside
      have bound := end_.isLt
      rw [userWriteableFrom_succ, if_pos inside] at passed
      cases found : entryOf state i with
      | none =>
          rw [found] at passed
          cases passed
      | some entry =>
          rw [found] at passed
          dsimp only at passed
          by_cases writeable : entry &&& pteRo = 0
          · rw [if_neg (not_not.mpr writeable)] at passed
            have here :
                ∀ address, i.toNat ≤ address → address < end_.toNat →
                  address < (i.toNat / 512 + 1) * 512 →
                    ¬ Refused state address := by
              intro address above inRange near refused
              have same :
                  entryOf state (BitVec.ofNat 64 address) =
                    entryOf state i :=
                same_page above near (inRange.trans bound)
              exact refused entry (same.trans found) writeable
            have next := toNat_next i
            by_cases last : 2 ^ 64 - 512 ≤ i.toNat
            · -- The next address is 0, so the loop would start again.
              have zero :
                  ((i / blockSize + 1) * blockSize).toNat = 0 := by
                rw [next]
                omega
              have again :
                  (i / blockSize + 1) * blockSize < end_ := by
                rw [BitVec.lt_def, zero]
                omega
              have ends := (ih passed again).1
              omega
            · have step :
                  ((i / blockSize + 1) * blockSize).toNat =
                    (i.toNat / 512 + 1) * 512 := by
                rw [next]
                omega
              by_cases more : (i / blockSize + 1) * blockSize < end_
              · rcases ih passed more with ⟨ends, later⟩
                refine ⟨ends, ?_⟩
                intro address above inRange
                by_cases near : address < (i.toNat / 512 + 1) * 512
                · exact here address above inRange near
                · apply later address
                  · rw [step]
                    omega
                  · exact inRange
              · rw [BitVec.lt_def, step] at more
                refine ⟨by omega, ?_⟩
                intro address above inRange
                exact here address above inRange (by omega)
          · rw [if_pos writeable] at passed
            cases passed

/-- A range whose pages are all writeable passes. -/
theorem exists_passes
    (ends : end_.toNat ≤ 2 ^ 64 - 512)
    (writeable :
      ∀ address, i.toNat ≤ address → address < end_.toNat →
        ¬ Refused state address) :
    ∃ fuel, userWriteableFrom state end_ fuel i = some true := by
  induction distance : end_.toNat - i.toNat using Nat.strong_induction_on
    generalizing i with
  | _ distance ih =>
      by_cases inside : i < end_
      · have below := BitVec.lt_def.mp inside
        have here := writeable i.toNat (le_refl _) below
        unfold Refused at here
        push Not at here
        rw [BitVec.ofNat_toNat, BitVec.setWidth_eq] at here
        rcases here with ⟨entry, found, notReadOnly⟩
        have step :
            ((i / blockSize + 1) * blockSize).toNat =
              (i.toNat / 512 + 1) * 512 := by
          rw [toNat_next]
          omega
        have later := ih
          (end_.toNat - ((i / blockSize + 1) * blockSize).toNat)
          (by omega)
          (fun address above inRange =>
            writeable address (by omega) inRange)
          rfl
        rcases later with ⟨fuel, passed⟩
        refine ⟨fuel + 1, ?_⟩
        rw [userWriteableFrom_succ, if_pos inside, found]
        dsimp only
        rw [if_neg (not_not.mpr notReadOnly)]
        exact passed
      · refine ⟨1, ?_⟩
        rw [userWriteableFrom_succ, if_neg inside]

end Loop

/--
The test protects the kernel from a range exactly if the range is safe, or if
it does not wrap and the loop finds a page to refuse.
-/
theorem protects_iff
    (state : State)
    (start size : Word) :
    Protects state start size ↔
      Safe state start size ∨ Stopped state start size := by
  have sum : (start + size).toNat = (start.toNat + size.toNat) % 2 ^ 64 :=
    BitVec.toNat_add start size
  have startBound := start.isLt
  have sizeBound := size.isLt
  constructor
  · intro protects
    by_contra neither
    rcases not_or.mp neither with ⟨notSafe, runs⟩
    have passes : ∃ fuel, userWriteable state start size fuel = some true := by
      by_cases straight : start.toNat + size.toNat < 2 ^ 64
      · by_cases empty : size = 0
        · refine ⟨1, ?_⟩
          have atEnd : ¬ start < start + size := by
            rw [BitVec.lt_def, sum, empty]
            change ¬ start.toNat < (start.toNat + 0) % 2 ^ 64
            omega
          unfold userWriteable
          rw [userWriteableFrom_succ, if_neg atEnd]
        · have whole : (start + size).toNat = start.toNat + size.toNat := by
            rw [sum]
            exact Nat.mod_eq_of_lt straight
          apply exists_passes
          · by_contra last
            apply runs
            rw [whole] at last
            exact ⟨straight, empty, Or.inl (by omega)⟩
          · intro address above inRange refused
            rw [whole] at inRange
            exact runs ⟨straight, empty,
              Or.inr ⟨address, above, inRange, refused⟩⟩
      · refine ⟨1, ?_⟩
        have atEnd : ¬ start < start + size := by
          rw [BitVec.lt_def, sum]
          omega
        unfold userWriteable
        rw [userWriteableFrom_succ, if_neg atEnd]
    rcases passes with ⟨fuel, passed⟩
    exact notSafe (protects fuel passed)
  · rintro (safe | ⟨straight, some_, stops⟩)
    · intro fuel _
      exact safe
    · intro fuel passed
      exfalso
      have positive : size.toNat ≠ 0 := by
        intro zero
        exact some_ (BitVec.eq_of_toNat_eq zero)
      have whole : (start + size).toNat = start.toNat + size.toNat := by
        rw [sum]
        exact Nat.mod_eq_of_lt straight
      have inside : start < start + size := by
        rw [BitVec.lt_def, whole]
        omega
      rcases UserWriteable.passes passed inside with ⟨ends, writeable⟩
      rw [whole] at ends writeable
      rcases stops with last | ⟨address, above, inRange, refused⟩
      · omega
      · exact writeable address above inRange refused

/-- A page of the user is mapped at `0x400000`. -/
def textLabels : List Label :=
  [.getPte 0x400000 true,
    .write 0x400000 0xFFFF000000103000 (0x108000 ||| pteUserData)]

/-- The page table after `init_pgdir` and these calls. -/
def textTable : Option State :=
  match initPgdir (fun _ => 0x55) firstPages with
  | .error _ => none
  | .ok start =>
      (executeChecked step
        (fun system label => decide (Allowed system label))
        { state := start, returned := [] } textLabels).map System.state

/--
The kernel address `0xFFFF000000400000` passes, because the user has a page at
`0x400000`; so does a range which wraps.
-/
theorem kernel_address_passes :
    ∃ table,
      textTable = some table ∧
        userWriteable table 0xFFFF000000400000 8 2 = some true ∧
        ¬ Protects table 0xFFFF000000400000 8 ∧
        userWriteable table 0xFFFFFFFFFFFFFFF0 0x20 1 = some true ∧
        ¬ Protects table 0xFFFFFFFFFFFFFFF0 0x20 := by
  have computed :
      (textTable.map fun table =>
        (userWriteable table 0xFFFF000000400000 8 2,
          userWriteable table 0xFFFFFFFFFFFFFFF0 0x20 1)) =
        some (some true, some true) := by
    decide +kernel
  rcases Option.map_eq_some_iff.mp computed with ⟨table, made, both⟩
  injection both with kernel wrapped
  refine ⟨table, made, kernel, ?_, wrapped, ?_⟩
  · intro protects
    have high := ((protects 2 kernel).allows 0xFFFF000000400000
      (by decide) (by decide)).below
    revert high
    decide
  · intro protects
    have straight := (protects 1 wrapped).straight
    revert straight
    decide

end FudanOS.Kernel.UserWriteable
