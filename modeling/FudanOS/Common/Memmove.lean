import FudanOS.Library.Transfer
import Mathlib.Data.BitVec
import Mathlib.Data.List.Range

/-!
# Moving bytes

`memmove` of `common/string.c`.  The bytes go up or down, so that a byte is
read before it is overwritten when the regions overlap.
-/

namespace FudanOS.Common.Memmove

open FudanOS.Library.Transfer

/-- An address, or a `usize`. -/
abbrev Word := BitVec 64

abbrev Memory := Word → UInt8

/-- `while (n-- > 0) *--d = *--s` -/
def copyDown : Nat → Word → Word → Memory → Memory
  | 0, _, _, memory => memory
  | n + 1, d, s, memory =>
      let d := d - 1
      let s := s - 1
      copyDown n d s (Function.update memory d (memory s))

/-- `while (n-- > 0) *d++ = *s++` -/
def copyUp : Nat → Word → Word → Memory → Memory
  | 0, _, _, memory => memory
  | n + 1, d, s, memory =>
      copyUp n (d + 1) (s + 1) (Function.update memory d (memory s))

/-- `memmove(dest, src, n)` -/
def memmove (memory : Memory) (dest src n : Word) : Word × Memory :=
  if src < dest ∧ dest - src < n then
    (dest, copyDown n.toNat (dest + n) (src + n) memory)
  else
    (dest, copyUp n.toNat dest src memory)

/-- The region has the bytes of the other one, and the rest is as before. -/
structure Moved
    (memory : Memory)
    (dest src n : Word)
    (after : Memory) : Prop where
  copied :
    ∀ index < n.toNat,
      after (dest + BitVec.ofNat 64 index) =
        memory (src + BitVec.ofNat 64 index)
  kept :
    ∀ address : Word,
      address.toNat < dest.toNat ∨
          dest.toNat + n.toNat ≤ address.toNat →
        after address = memory address

section Loops

variable
    {memory : Memory}
    {dest src n : Word}

/-- The moves of a region, from its first byte on. -/
def upward (dest src : Word) (count : Nat) : List (Word × Word) :=
  (List.range count).map fun index =>
    (dest + BitVec.ofNat 64 index, src + BitVec.ofNat 64 index)

theorem copyUp_eq
    (count : Nat)
    (dest src : Word)
    (memory : Memory) :
    copyUp count dest src memory =
      transfer memory (upward dest src count) := by
  induction count generalizing dest src memory with
  | zero => rfl
  | succ count ih =>
      have rest :
          (upward (dest + 1) (src + 1) count) =
            ((List.range count).map Nat.succ).map fun index =>
              (dest + BitVec.ofNat 64 index, src + BitVec.ofNat 64 index) := by
        unfold upward
        rw [List.map_map]
        apply List.map_congr_left
        intro index _
        have next (address : Word) :
            address + 1 + BitVec.ofNat 64 index =
              address + BitVec.ofNat 64 (index + 1) := by
          rw [BitVec.add_assoc, Nat.add_comm index 1, BitVec.ofNat_add]
          rfl
        rw [next, next]
        rfl
      rw [copyUp, ih, rest]
      unfold upward
      rw [List.range_succ_eq_map, List.map_cons, transfer]
      simp

/-- The same moves from the last byte on are those of the other loop. -/
theorem copyDown_eq
    (count : Nat)
    (dest src : Word)
    (memory : Memory) :
    copyDown count (dest + BitVec.ofNat 64 count)
        (src + BitVec.ofNat 64 count) memory =
      transfer memory (upward dest src count).reverse := by
  induction count generalizing memory with
  | zero => rfl
  | succ count ih =>
      have back (address : Word) :
          address + BitVec.ofNat 64 (count + 1) - 1 =
            address + BitVec.ofNat 64 count := by
        rw [BitVec.ofNat_add, ← BitVec.add_assoc]
        exact BitVec.add_sub_cancel _ _
      rw [copyDown, back, back, ih]
      unfold upward
      rw [List.range_succ, List.map_append, List.reverse_append,
        List.map_singleton, List.reverse_singleton, List.singleton_append,
        transfer]

theorem toNat_offset
    (fits : dest.toNat + n.toNat ≤ 2 ^ 64)
    {index : Nat}
    (inside : index < n.toNat) :
    (dest + BitVec.ofNat 64 index).toNat = dest.toNat + index := by
  rw [BitVec.toNat_add, BitVec.toNat_ofNat]
  omega

theorem mem_upward
    {target source : Word} :
    (target, source) ∈ upward dest src n.toNat ↔
      ∃ index < n.toNat,
        target = dest + BitVec.ofNat 64 index ∧
          source = src + BitVec.ofNat 64 index := by
  unfold upward
  rw [List.mem_map]
  constructor
  · rintro ⟨index, inside, same⟩
    cases same
    exact ⟨index, List.mem_range.mp inside, rfl, rfl⟩
  · rintro ⟨index, inside, rfl, rfl⟩
    exact ⟨index, List.mem_range.mpr inside, rfl⟩

/-- The moves of a region in any order in which they spare each other. -/
theorem moved_of_perm
    (fits : dest.toNat + n.toNat ≤ 2 ^ 64)
    {moves : List (Word × Word)}
    (perm : moves.Perm (upward dest src n.toNat))
    (ordered : moves.Pairwise Spares) :
    Moved memory dest src n (transfer memory moves) := by
  constructor
  · intro index inside
    apply transfer_target ordered
    exact perm.mem_iff.mpr (mem_upward.mpr ⟨index, inside, rfl, rfl⟩)
  · intro address outside
    apply transfer_other
    rintro ⟨target, source⟩ member rfl
    rcases mem_upward.mp (perm.mem_iff.mp member) with
      ⟨index, inside, rfl, -⟩
    rw [toNat_offset fits inside] at outside
    omega

/-- Two moves of a region spare each other unless they overlap. -/
theorem spares_of_ne
    (destFits : dest.toNat + n.toNat ≤ 2 ^ 64)
    (srcFits : src.toNat + n.toNat ≤ 2 ^ 64)
    {first second : Nat}
    (firstInside : first < n.toNat)
    (secondInside : second < n.toNat)
    (different : first ≠ second)
    (apart : dest.toNat + first ≠ src.toNat + second) :
    Spares
      (dest + BitVec.ofNat 64 first, src + BitVec.ofNat 64 first)
      (dest + BitVec.ofNat 64 second, src + BitVec.ofNat 64 second) := by
  constructor
  · intro same
    have equal := congrArg BitVec.toNat same
    rw [toNat_offset destFits firstInside,
      toNat_offset destFits secondInside] at equal
    omega
  · intro same
    have equal := congrArg BitVec.toNat same
    rw [toNat_offset destFits firstInside,
      toNat_offset srcFits secondInside] at equal
    exact apart equal

end Loops

/-- `memmove` is right for all regions which do not wrap around. -/
theorem memmove_moves
    (memory : Memory)
    {dest src n : Word}
    (destFits : dest.toNat + n.toNat ≤ 2 ^ 64)
    (srcFits : src.toNat + n.toNat ≤ 2 ^ 64) :
    (memmove memory dest src n).1 = dest ∧
      Moved memory dest src n (memmove memory dest src n).2 := by
  unfold memmove
  split_ifs with overlap
  · refine ⟨rfl, ?_⟩
    rcases overlap with ⟨below, near⟩
    have whole : n = BitVec.ofNat 64 n.toNat :=
      (BitVec.ofNat_toNat 64 n).symm ▸ (BitVec.setWidth_eq n).symm
    have down := copyDown_eq n.toNat dest src memory
    rw [← whole] at down
    change Moved memory dest src n
      (copyDown n.toNat (dest + n) (src + n) memory)
    rw [down]
    apply moved_of_perm destFits (List.reverse_perm _)
    rw [List.pairwise_reverse]
    unfold upward
    rw [List.pairwise_map]
    apply List.pairwise_lt_range.imp_of_mem
    intro second first secondInside firstInside order
    apply spares_of_ne destFits srcFits (List.mem_range.mp firstInside)
      (List.mem_range.mp secondInside)
    · omega
    · rw [BitVec.lt_def] at below
      omega
  · refine ⟨rfl, ?_⟩
    change Moved memory dest src n (copyUp n.toNat dest src memory)
    rw [copyUp_eq]
    apply moved_of_perm destFits (List.Perm.refl _)
    unfold upward
    rw [List.pairwise_map]
    apply List.pairwise_lt_range.imp_of_mem
    intro first second firstInside secondInside order
    apply spares_of_ne destFits srcFits (List.mem_range.mp firstInside)
      (List.mem_range.mp secondInside)
    · omega
    · intro same
      -- A target below the sources of later moves would be an overlap.
      apply overlap
      have inside := List.mem_range.mp secondInside
      constructor
      · rw [BitVec.lt_def]
        omega
      · rw [BitVec.lt_def, BitVec.toNat_sub]
        omega

/-- Two bytes up by one, over a source which overlaps. -/
theorem memmove_moves_overlap :
    let memory : Memory := fun address =>
      if address = 0x1000 then 1 else if address = 0x1001 then 2 else 0
    (memmove memory 0x1001 0x1000 2).1 = 0x1001 ∧
      Moved memory 0x1001 0x1000 2
        (memmove memory 0x1001 0x1000 2).2 :=
  memmove_moves _ (by decide) (by decide)

end FudanOS.Common.Memmove
