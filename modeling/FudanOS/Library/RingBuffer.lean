import Mathlib.Data.List.Basic
import Mathlib.Data.Nat.ModEq
import Mathlib.Logic.Function.Basic
import Mathlib.Tactic.Common

/-!
# A ring of cells with two counters

A buffer of `size` cells is filled through a counter `write` and emptied
through a counter `read`.  Both count modulo a number which `size` divides, as
machine integers do, and a counter finds its cell modulo `size`.  `Contains`
says which list such a ring holds, and the lemmas below say what a push, a pop
and the removal of the last item do to that list.
-/

namespace FudanOS.Library.RingBuffer

variable {Item : Type*}

/--
The ring holds `items` after `taken` items have been taken out.  The counters
are `taken` and `taken + items.length`, modulo `modulus`.
-/
structure Contains
    (size modulus : Nat)
    (buffer : Nat → Item)
    (read write taken : Nat)
    (items : List Item) : Prop where
  bounded : items.length ≤ size
  read : read = taken % modulus
  write : write = (taken + items.length) % modulus
  stored :
    ∀ index (inside : index < items.length),
      buffer ((taken + index) % size) = items.get ⟨index, inside⟩

section Counters

variable
    {size modulus : Nat}

/-- Counters which differ by less than the modulus are told apart. -/
theorem mod_add_eq_iff
    (base : Nat)
    {left right : Nat}
    (leftBelow : left < modulus)
    (rightBelow : right < modulus) :
    (base + left) % modulus = (base + right) % modulus ↔ left = right := by
  constructor
  · intro same
    have cancelled : left % modulus = right % modulus :=
      Nat.ModEq.add_left_cancel' base same
    rwa [Nat.mod_eq_of_lt leftBelow, Nat.mod_eq_of_lt rightBelow]
      at cancelled
  · rintro rfl
    rfl

/-- The distance of two counters, as machine integers compute it. -/
theorem mod_distance
    (base : Nat)
    {count : Nat}
    (below : count < modulus) :
    ((base + count) % modulus + modulus - base % modulus) % modulus =
      count := by
  have positive : 0 < modulus := Nat.lt_of_le_of_lt (Nat.zero_le _) below
  have baseBelow : base % modulus < modulus := Nat.mod_lt _ positive
  have whole :
      base % modulus +
          ((base + count) % modulus + modulus - base % modulus) =
        (base + count) % modulus + modulus := by
    omega
  have same :
      base % modulus +
          ((base + count) % modulus + modulus - base % modulus) ≡
        base % modulus + count [MOD modulus] := by
    rw [whole]
    calc
      (base + count) % modulus + modulus ≡ (base + count) % modulus
          [MOD modulus] := Nat.add_modEq_right
      _ ≡ base + count [MOD modulus] := Nat.mod_modEq _ _
      _ ≡ base % modulus + count [MOD modulus] :=
          Nat.ModEq.add_right _ (Nat.mod_modEq _ _).symm
  have cancelled := Nat.ModEq.add_left_cancel' (base % modulus) same
  unfold Nat.ModEq at cancelled
  rwa [Nat.mod_eq_of_lt below] at cancelled

/-- A counter which goes one up and one down is where it was. -/
theorem mod_succ_pred
    (positive : 0 < modulus)
    (number : Nat) :
    ((number + 1) % modulus + modulus - 1) % modulus =
      number % modulus := by
  have whole :
      (number + 1) % modulus + modulus - 1 =
        (number + 1) % modulus + (modulus - 1) := by
    omega
  have total : number + 1 + (modulus - 1) = number + modulus := by omega
  rw [whole, Nat.mod_add_mod, total, Nat.add_mod_right]

/-- The cell of a counter is that of the number which it counts. -/
theorem mod_mod_size
    (divides : size ∣ modulus)
    (number : Nat) :
    number % modulus % size = number % size :=
  Nat.mod_mod_of_dvd number divides

/-- Cells of numbers which are closer than the size are different. -/
theorem cell_ne
    {base left right : Nat}
    (leftBelow : left < size)
    (rightBelow : right < size)
    (different : left ≠ right) :
    (base + left) % size ≠ (base + right) % size := by
  intro same
  exact different ((mod_add_eq_iff base leftBelow rightBelow).mp same)

end Counters

namespace Contains

variable
    {size modulus : Nat}
    {buffer : Nat → Item}
    {read write taken : Nat}
    {items rest : List Item}
    {item : Item}

/-- A ring with both counters at zero is empty. -/
theorem empty : Contains size modulus buffer 0 0 0 [] :=
  ⟨Nat.zero_le _, (Nat.zero_mod _).symm, (Nat.zero_mod _).symm,
    fun _ inside => absurd inside (Nat.not_lt_zero _)⟩

/-- The counters agree on the empty ring only. -/
theorem read_eq_write_iff
    (contains : Contains size modulus buffer read write taken items)
    (larger : size < modulus) :
    read = write ↔ items = [] := by
  have below : items.length < modulus :=
    Nat.lt_of_le_of_lt contains.bounded larger
  have positive : 0 < modulus := Nat.lt_of_le_of_lt (Nat.zero_le _) larger
  have compare := mod_add_eq_iff taken positive below
  rw [contains.read, contains.write]
  rw [Nat.add_zero] at compare
  rw [compare, eq_comm, List.length_eq_zero_iff]

/-- The counters are apart by the size on a full ring only. -/
theorem write_eq_read_add_iff
    (contains : Contains size modulus buffer read write taken items)
    (larger : size < modulus) :
    write = (read + size) % modulus ↔ items.length = size := by
  have below : items.length < modulus :=
    Nat.lt_of_le_of_lt contains.bounded larger
  rw [contains.read, contains.write, Nat.mod_add_mod]
  exact mod_add_eq_iff taken below larger

/-- The distance of the counters is the number of items. -/
theorem distance
    (contains : Contains size modulus buffer read write taken items)
    (larger : size < modulus) :
    (write + modulus - read) % modulus = items.length := by
  rw [contains.read, contains.write]
  exact mod_distance taken
    (Nat.lt_of_le_of_lt contains.bounded larger)

/-- The first item is where `read` points. -/
theorem front
    (contains :
      Contains size modulus buffer read write taken (item :: rest))
    (divides : size ∣ modulus) :
    buffer (read % size) = item := by
  have first := contains.stored 0 (Nat.zero_lt_succ _)
  rw [contains.read, mod_mod_size divides]
  exact first

/-- The first item is taken out. -/
theorem pop
    (contains :
      Contains size modulus buffer read write taken (item :: rest)) :
    Contains size modulus buffer ((read + 1) % modulus) write (taken + 1)
      rest := by
  refine ⟨?_, ?_, ?_, ?_⟩
  · exact Nat.le_of_succ_le contains.bounded
  · rw [contains.read, Nat.mod_add_mod]
  · rw [contains.write, List.length_cons]
    congr 1
    omega
  · intro index inside
    have later := contains.stored (index + 1) (Nat.succ_lt_succ inside)
    have same : taken + (index + 1) = taken + 1 + index := by omega
    rw [same] at later
    exact later

/-- A cell outside of the items is overwritten. -/
theorem overwrite
    (contains : Contains size modulus buffer read write taken items)
    (divides : size ∣ modulus)
    (room : items.length < size)
    (item : Item) :
    Contains size modulus
      (Function.update buffer (write % size) item) read write taken
      items := by
  refine ⟨contains.bounded, contains.read, contains.write, ?_⟩
  intro index inside
  have different :
      (taken + index) % size ≠ write % size := by
    rw [contains.write, mod_mod_size divides]
    exact cell_ne (Nat.lt_trans inside room) room (Nat.ne_of_lt inside)
  rw [Function.update_of_ne different]
  exact contains.stored index inside

/-- The item in the cell of `write` becomes the last one. -/
theorem extend
    (contains : Contains size modulus buffer read write taken items)
    (divides : size ∣ modulus)
    (room : items.length < size)
    (placed : buffer (write % size) = item) :
    Contains size modulus buffer read ((write + 1) % modulus) taken
      (items ++ [item]) := by
  refine ⟨?_, contains.read, ?_, ?_⟩
  · rw [List.length_append]
    exact room
  · rw [contains.write, Nat.mod_add_mod, List.length_append]
    rfl
  · intro index inside
    by_cases before : index < items.length
    · have old := contains.stored index before
      simp only [List.get_eq_getElem] at old ⊢
      rw [old, List.getElem_append_left before]
    · have same : index = items.length := by
        rw [List.length_append] at inside
        simp only [List.length_cons, List.length_nil] at inside
        omega
      subst same
      rw [contains.write, mod_mod_size divides] at placed
      simp only [List.get_eq_getElem]
      rw [placed, List.getElem_concat_length rfl]

/-- The last item is given up; its cell keeps what it has. -/
theorem unextend
    (contains :
      Contains size modulus buffer read write taken (items ++ [item]))
    (positive : 0 < modulus) :
    Contains size modulus buffer read ((write + modulus - 1) % modulus)
      taken items := by
  have bounded := contains.bounded
  rw [List.length_append] at bounded
  refine ⟨Nat.le_of_succ_le bounded, contains.read, ?_, ?_⟩
  · have writeEq := contains.write
    rw [List.length_append, List.length_singleton, ← Nat.add_assoc]
      at writeEq
    rw [writeEq]
    exact mod_succ_pred positive _
  · intro index inside
    have longer : index < (items ++ [item]).length := by
      rw [List.length_append]
      exact Nat.lt_of_lt_of_le inside (Nat.le_add_right _ _)
    have old := contains.stored index longer
    simp only [List.get_eq_getElem] at old ⊢
    rw [old, List.getElem_append_left inside]

/-- The last item is in the cell before `write`. -/
theorem back
    (contains :
      Contains size modulus buffer read write taken (items ++ [item]))
    (divides : size ∣ modulus)
    (positive : 0 < modulus) :
    buffer ((write + modulus - 1) % modulus % size) = item := by
  have shorter := contains.unextend positive
  have longer : items.length < (items ++ [item]).length := by
    rw [List.length_append]
    exact Nat.lt_succ_self _
  have last := contains.stored items.length longer
  rw [shorter.write, mod_mod_size divides, last, List.get_eq_getElem,
    List.getElem_concat_length rfl]

end Contains

end FudanOS.Library.RingBuffer
