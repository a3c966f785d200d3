import Mathlib.Order.Basic
import Mathlib.Tactic.Common

/-!
# Views of a memory

A memory as a reader sees it: a partial function from addresses to what is
stored there.  `Stores` says what a write of a range may change, in a view
which may also grow.
-/

namespace FudanOS.Library.Views

variable {Byte : Type}

/-- What can be read at an address, and `none` where nothing is mapped. -/
abbrev View (Byte : Type) := Nat → Option Byte

def InRange (start length address : Nat) : Prop :=
  start ≤ address ∧ address < start + length

instance (start length address : Nat) :
    Decidable (InRange start length address) :=
  inferInstanceAs (Decidable (_ ∧ _))

/--
The range has the data afterwards.  What could be read outside of the range is
as before; other addresses may have become readable.
-/
structure Stores
    (before : View Byte)
    (start length : Nat)
    (data : Nat → Byte)
    (after : View Byte) : Prop where
  written :
    ∀ offset < length, after (start + offset) = some (data offset)
  kept :
    ∀ address, ¬ InRange start length address → before address ≠ none →
      after address = before address

namespace Stores

variable
    {before middle after : View Byte}
    {start length more : Nat}
    {data rest : Nat → Byte}

theorem nil
    (view : View Byte)
    (start : Nat)
    (data : Nat → Byte) :
    Stores view start 0 data view :=
  ⟨fun _ impossible => absurd impossible (Nat.not_lt_zero _),
    fun _ _ _ => rfl⟩

/-- What could be read can be read afterwards. -/
theorem readable
    (stores : Stores before start length data after)
    {address : Nat}
    (there : before address ≠ none) :
    after address ≠ none := by
  by_cases inside : InRange start length address
  · have written := stores.written (address - start) (by
      unfold InRange at inside
      omega)
    rw [Nat.add_sub_cancel' inside.1] at written
    rw [written]
    exact Option.some_ne_none _
  · rw [stores.kept address inside there]
    exact there

/-- Two writes of neighbouring ranges are a write of both. -/
theorem append
    (first : Stores before start length data middle)
    (second :
      Stores middle (start + length) more
        (fun offset => data (length + offset)) after) :
    Stores before start (length + more) data after := by
  constructor
  · intro offset inside
    by_cases early : offset < length
    · have outside : ¬ InRange (start + length) more (start + offset) := by
        unfold InRange
        omega
      have written := first.written offset early
      rw [second.kept _ outside (by rw [written]; exact Option.some_ne_none _),
        written]
    · have written := second.written (offset - length) (by omega)
      have address :
          start + length + (offset - length) = start + offset := by
        omega
      have position : length + (offset - length) = offset := by omega
      rw [address, position] at written
      exact written
  · intro address outside there
    have notFirst : ¬ InRange start length address := by
      unfold InRange at outside ⊢
      omega
    have notSecond : ¬ InRange (start + length) more address := by
      unfold InRange at outside ⊢
      omega
    have kept := first.kept address notFirst there
    rw [second.kept address notSecond (by rw [kept]; exact there), kept]

theorem congr
    (stores : Stores before start length data after)
    (same : ∀ offset < length, data offset = rest offset) :
    Stores before start length rest after := by
  refine ⟨?_, stores.kept⟩
  intro offset inside
  rw [stores.written offset inside, same offset inside]

end Stores

/-! ## Lists of bytes -/

/-- The bytes stand in the view from an address on. -/
def Lies (view : View Byte) (start : Nat) (bytes : List Byte) : Prop :=
  ∀ offset < bytes.length, view (start + offset) = bytes[offset]?

section Lists

variable
    {view before after : View Byte}
    {start length other : Nat}
    {data : Nat → Byte}
    {byte : Byte}
    {bytes left right : List Byte}

@[simp]
theorem lies_nil (view : View Byte) (start : Nat) : Lies view start [] :=
  fun _ impossible => absurd impossible (Nat.not_lt_zero _)

theorem lies_append :
    Lies view start (left ++ right) ↔
      Lies view start left ∧ Lies view (start + left.length) right := by
  constructor
  · intro lies
    constructor
    · intro offset inside
      rw [lies offset (by rw [List.length_append]; omega),
        List.getElem?_append_left inside]
    · intro offset inside
      rw [Nat.add_assoc,
        lies (left.length + offset) (by rw [List.length_append]; omega),
        List.getElem?_append_right (Nat.le_add_right _ _),
        Nat.add_sub_cancel_left]
  · rintro ⟨first, second⟩ offset inside
    rw [List.length_append] at inside
    by_cases early : offset < left.length
    · rw [first offset early, List.getElem?_append_left early]
    · have late : left.length ≤ offset := Nat.le_of_not_lt early
      have there := second (offset - left.length) (by omega)
      rw [Nat.add_assoc, Nat.add_sub_cancel' late] at there
      rw [there, List.getElem?_append_right late]

theorem lies_cons :
    Lies view start (byte :: bytes) ↔
      view start = some byte ∧ Lies view (start + 1) bytes := by
  rw [← List.singleton_append, lies_append]
  constructor
  · rintro ⟨first, rest⟩
    exact ⟨first 0 Nat.one_pos, rest⟩
  · rintro ⟨first, rest⟩
    refine ⟨?_, rest⟩
    intro offset inside
    have zero : offset = 0 := Nat.lt_one_iff.mp inside
    subst zero
    exact first

/-- What lies in a view can be read. -/
theorem Lies.readable
    (lies : Lies view start bytes)
    {address : Nat}
    (inside : InRange start bytes.length address) :
    view address ≠ none := by
  have there := lies (address - start) (by
    unfold InRange at inside
    omega)
  rw [Nat.add_sub_cancel' inside.1] at there
  rw [there, List.getElem?_eq_getElem (by
    unfold InRange at inside
    omega)]
  exact Option.some_ne_none _

/-- A write of a list leaves the list. -/
theorem Stores.lies
    (stores : Stores before start bytes.length data after)
    (same : ∀ offset < bytes.length, bytes[offset]? = some (data offset)) :
    Lies after start bytes := by
  intro offset inside
  rw [stores.written offset inside, same offset inside]

end Lists

end FudanOS.Library.Views
