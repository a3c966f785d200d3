import FudanOS.Kernel.PageTable

/-!
# The tree of the tables

The indices of virtual addresses as numbers.  Every sequence of indices is the
path of some address, so that what `Shape` says about the paths of addresses
holds for all entries of a table.
-/

namespace FudanOS.Kernel.TableTree

open FudanOS.Aarch64.Mmu
open FudanOS.Library.BitFields
open FudanOS.Kernel.PageTable

/-- The address with these indices. -/
def addressOf (first second third fourth : Nat) : Word :=
  BitVec.ofNat 64
    ((((first * 512 + second) * 512 + third) * 512 + fourth) * 4096)

section Indices

variable
    {va : Word}
    {first second third fourth : Nat}

theorem toNat_part0 (va : Word) :
    (part va 0).toNat = va.toNat / 2 ^ 39 % 512 :=
  toNat_field ones_part0

theorem toNat_part1 (va : Word) :
    (part va 1).toNat = va.toNat / 2 ^ 30 % 512 :=
  toNat_field ones_part1

theorem toNat_part2 (va : Word) :
    (part va 2).toNat = va.toNat / 2 ^ 21 % 512 :=
  toNat_field ones_part2

theorem toNat_part3 (va : Word) :
    (part va 3).toNat = va.toNat / 2 ^ 12 % 512 :=
  toNat_field ones_part3

/-- An address is found from its indices. -/
theorem part_addressOf
    (firstBelow : first < 512)
    (secondBelow : second < 512)
    (thirdBelow : third < 512)
    (fourthBelow : fourth < 512) :
    (part (addressOf first second third fourth) 0).toNat = first ∧
      (part (addressOf first second third fourth) 1).toNat = second ∧
      (part (addressOf first second third fourth) 2).toNat = third ∧
      (part (addressOf first second third fourth) 3).toNat = fourth := by
  have whole :
      (addressOf first second third fourth).toNat =
        (((first * 512 + second) * 512 + third) * 512 + fourth) * 4096 := by
    unfold addressOf
    rw [BitVec.toNat_ofNat]
    omega
  rw [toNat_part0, toNat_part1, toNat_part2, toNat_part3, whole]
  refine ⟨?_, ?_, ?_, ?_⟩ <;> omega

/-- A path goes on at any index. -/
theorem exists_path
    (va : Word)
    {level : Nat}
    (inside : level ≤ 3)
    {index : Word}
    (below : index.toNat < 512) :
    ∃ other, path other level = path va level ∧ part other level = index := by
  have bound0 := part_lt va 0
  have bound1 := part_lt va 1
  have bound2 := part_lt va 2
  have zero : (0 : Nat) < 512 := by decide
  match level with
  | 0 =>
      have parts := part_addressOf below zero zero zero
      exact ⟨addressOf index.toNat 0 0 0, rfl,
        BitVec.eq_of_toNat_eq parts.1⟩
  | 1 =>
      have parts := part_addressOf bound0 below zero zero
      refine ⟨_, ?_, BitVec.eq_of_toNat_eq parts.2.1⟩
      simp only [path, List.cons.injEq, and_true]
      exact BitVec.eq_of_toNat_eq parts.1
  | 2 =>
      have parts := part_addressOf bound0 bound1 below zero
      refine ⟨_, ?_, BitVec.eq_of_toNat_eq parts.2.2.1⟩
      simp only [path, List.cons.injEq, and_true]
      exact ⟨BitVec.eq_of_toNat_eq parts.2.1, BitVec.eq_of_toNat_eq parts.1⟩
  | 3 =>
      have parts := part_addressOf bound0 bound1 bound2 below
      refine ⟨_, ?_, BitVec.eq_of_toNat_eq parts.2.2.2⟩
      simp only [path, List.cons.injEq, and_true]
      exact ⟨BitVec.eq_of_toNat_eq parts.2.2.1,
        BitVec.eq_of_toNat_eq parts.2.1, BitVec.eq_of_toNat_eq parts.1⟩

end Indices

section Entries

variable
    {state : State}
    {tables : List Word → Option Word}
    {values : Word → Word}
    {va table index : Word}
    {level : Nat}

/-- Every entry of an inner table is a table, or zero. -/
theorem child
    (shape : Shape state tables values)
    (inside : level < 3)
    (here : tables (path va level) = some table)
    (below : index.toNat < 512) :
    state.memory (entryAddress table index) =
      encode (tables (index :: path va level)) := by
  rcases exists_path va inside.le below with ⟨other, route, rfl⟩
  rw [← route] at here ⊢
  exact shape.inner other level table inside here

end Entries

end FudanOS.Kernel.TableTree
