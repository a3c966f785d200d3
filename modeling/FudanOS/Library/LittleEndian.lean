import Mathlib.Data.Nat.ModEq
import Mathlib.Tactic.Ring

/-!
# Little-endian byte sequences

A number is stored as the sequence of its base-256 digits, least significant
first.  `byte value index` is one digit and `value bytes width` reads `width`
digits back.  Reading what was stored gives the number modulo `256 ^ width`,
so a fixed-width field is recovered exactly when the number fits.
-/

namespace FudanOS.Library.LittleEndian

/-- Digit `index` of `value` in base 256. -/
def byte (value index : Nat) : UInt8 :=
  UInt8.ofNat (value / 256 ^ index)

/-- The number stored in the first `width` entries of `bytes`. -/
def value (bytes : Nat → UInt8) : Nat → Nat
  | 0 => 0
  | width + 1 =>
      value bytes width + (bytes width).toNat * 256 ^ width

theorem toNat_byte (number index : Nat) :
    (byte number index).toNat = number / 256 ^ index % 256 := by
  simp [byte]

/-- Reading stored digits gives the number modulo the width of the field. -/
theorem value_byte (number width : Nat) :
    value (byte number) width = number % 256 ^ width := by
  induction width with
  | zero => simp [value, Nat.mod_one]
  | succ width ih =>
      rw [value, ih, toNat_byte, Nat.pow_succ, Nat.mod_mul]
      ring

theorem value_congr
    {left right : Nat → UInt8}
    {width : Nat}
    (agree : ∀ index < width, left index = right index) :
    value left width = value right width := by
  induction width with
  | zero => rfl
  | succ width ih =>
      rw [value, value, agree width (Nat.lt_succ_self width),
        ih fun index below => agree index (Nat.lt_succ_of_lt below)]

theorem value_lt (bytes : Nat → UInt8) (width : Nat) :
    value bytes width < 256 ^ width := by
  induction width with
  | zero => simp [value]
  | succ width ih =>
      have digit : (bytes width).toNat ≤ 255 :=
        Nat.le_of_lt_succ (bytes width).toNat_lt
      have product :
          (bytes width).toNat * 256 ^ width ≤ 255 * 256 ^ width :=
        Nat.mul_le_mul_right _ digit
      rw [value, Nat.pow_succ]
      omega

end FudanOS.Library.LittleEndian
