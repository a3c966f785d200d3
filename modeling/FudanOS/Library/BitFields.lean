import Mathlib.Data.BitVec
import Mathlib.Order.Interval.Set.Basic

/-!
# Bit fields of machine words

A field of a word is what a mask and a shift to the right leave of it.  Two
words have equal fields exactly when they agree on the bits of the mask, and
agreement on a range of bits is put together from agreement on its parts.
-/

namespace FudanOS.Library.BitFields

variable
    {width : Nat}
    {left right : BitVec width}
    {low middle high : Nat}

/-- The words have the same bits from `low` to `high`. -/
def Agree (low high : Nat) (left right : BitVec width) : Prop :=
  ∀ bit, low ≤ bit → bit ≤ high → left.getLsbD bit = right.getLsbD bit

instance (low high : Nat) (left right : BitVec width) :
    Decidable (Agree low high left right) :=
  decidable_of_iff
    (∀ bit < high + 1,
      low ≤ bit → left.getLsbD bit = right.getLsbD bit)
    ⟨fun agree bit above below =>
        agree bit (Nat.lt_succ_of_le below) above,
      fun agree bit below above =>
        agree bit above (Nat.le_of_lt_succ below)⟩

namespace Agree

variable {other : BitVec width}

theorem symm
    (agree : Agree low high left right) :
    Agree low high right left := by
  intro bit above below
  exact (agree bit above below).symm

theorem trans
    (first : Agree low high left right)
    (second : Agree low high right other) :
    Agree low high left other := by
  intro bit above below
  exact (first bit above below).trans (second bit above below)

/-- A range of bits is cut in two above the bit `middle`. -/
theorem split
    (start : low ≤ middle)
    (stop : middle < high) :
    Agree low high left right ↔
      Agree low middle left right ∧ Agree (middle + 1) high left right := by
  constructor
  · intro agree
    constructor
    · intro bit above below
      exact agree bit above (below.trans stop.le)
    · intro bit above below
      exact agree bit (start.trans (Nat.le_of_succ_le above)) below
  · rintro ⟨lower, upper⟩ bit above below
    rcases Nat.lt_or_ge middle bit with beyond | within
    · exact upper bit beyond below
    · exact lower bit above within

end Agree

/-- The bits of a mask are checked below the width of the word. -/
theorem ones_of_lt
    {mask : BitVec width}
    (checked :
      ∀ bit < width, mask.getLsbD bit = decide (low ≤ bit ∧ bit ≤ high))
    (fits : high < width)
    (bit : Nat) :
    mask.getLsbD bit = decide (low ≤ bit ∧ bit ≤ high) := by
  rcases Nat.lt_or_ge bit width with inside | beyond
  · exact checked bit inside
  · have above : ¬ bit ≤ high := Nat.not_le.mpr (fits.trans_le beyond)
    rw [BitVec.getLsbD_of_ge _ _ beyond]
    simp [above]

/-- Words have equal fields when they agree on the bits of the mask. -/
theorem field_eq_iff
    {mask : BitVec width}
    (ones :
      ∀ bit, mask.getLsbD bit = decide (low ≤ bit ∧ bit ≤ high)) :
    (left &&& mask) >>> low = (right &&& mask) >>> low ↔
      Agree low high left right := by
  have field :
      ∀ (word : BitVec width) (bit : Nat),
        ((word &&& mask) >>> low).getLsbD bit =
          (word.getLsbD (low + bit) && decide (low + bit ≤ high)) := by
    intro word bit
    rw [BitVec.getLsbD_ushiftRight, BitVec.getLsbD_and, ones]
    simp
  constructor
  · intro same bit above below
    have equal := congrArg (fun word => word.getLsbD (bit - low)) same
    rw [field, field, Nat.add_sub_cancel' above] at equal
    simpa [below] using equal
  · intro agree
    apply BitVec.eq_of_getLsbD_eq
    intro bit _
    rw [field, field]
    by_cases below : low + bit ≤ high
    · rw [agree (low + bit) (Nat.le_add_right low bit) below]
    · simp [below]

/-- The field of a word has no more bits than its range. -/
theorem field_lt
    {mask : BitVec width}
    {word : BitVec width}
    (ones :
      ∀ bit, mask.getLsbD bit = decide (low ≤ bit ∧ bit ≤ high)) :
    ((word &&& mask) >>> low).toNat < 2 ^ (high + 1 - low) := by
  apply Nat.lt_pow_two_of_testBit
  intro bit beyond
  rw [← BitVec.getLsbD, BitVec.getLsbD_ushiftRight, BitVec.getLsbD_and,
    ones]
  have above : ¬ low + bit ≤ high := by
    omega
  simp [above]

/-- A field as a number. -/
theorem toNat_field
    {mask : BitVec width}
    {word : BitVec width}
    (ones :
      ∀ bit, mask.getLsbD bit = decide (low ≤ bit ∧ bit ≤ high)) :
    ((word &&& mask) >>> low).toNat =
      word.toNat / 2 ^ low % 2 ^ (high + 1 - low) := by
  apply Nat.eq_of_testBit_eq
  intro bit
  rw [Nat.testBit_mod_two_pow, Nat.testBit_div_two_pow, ← BitVec.getLsbD,
    ← BitVec.getLsbD, BitVec.getLsbD_ushiftRight, BitVec.getLsbD_and, ones,
    Nat.add_comm bit low]
  have same :
      decide (low ≤ low + bit ∧ low + bit ≤ high) =
        decide (bit < high + 1 - low) := by
    apply decide_eq_decide.mpr
    omega
  rw [same, Bool.and_comm]

end FudanOS.Library.BitFields
