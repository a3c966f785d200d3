import Mathlib.Data.List.Pairwise
import Mathlib.Logic.Function.Basic

/-!
# Moves within one memory

A list of moves copies places of a memory one after the other.  When no move
writes to a place which a later one reads or writes, all of them see the
memory as it was at the start.
-/

namespace FudanOS.Library.Transfer

variable
    {Place Value : Type*}
    [DecidableEq Place]

/-- Each pair has the place which is written, and the one which is read. -/
def transfer (memory : Place → Value) : List (Place × Place) → Place → Value
  | [] => memory
  | (target, source) :: moves =>
      transfer (Function.update memory target (memory source)) moves

/-- The first move does not disturb the second one. -/
def Spares (first second : Place × Place) : Prop :=
  first.1 ≠ second.1 ∧ first.1 ≠ second.2

variable
    {memory : Place → Value}
    {moves : List (Place × Place)}
    {place : Place}

/-- What no move writes to stays. -/
theorem transfer_other
    (apart : ∀ move ∈ moves, move.1 ≠ place) :
    transfer memory moves place = memory place := by
  induction moves generalizing memory with
  | nil => rfl
  | cons move moves ih =>
      rcases move with ⟨target, source⟩
      have different : place ≠ target :=
        (apart _ List.mem_cons_self).symm
      rw [transfer, ih fun move member =>
        apart move (List.mem_cons_of_mem _ member)]
      exact Function.update_of_ne different _ _

/-- Each target gets what its source had at the start. -/
theorem transfer_target
    (ordered : moves.Pairwise Spares)
    {target source : Place}
    (member : (target, source) ∈ moves) :
    transfer memory moves target = memory source := by
  induction moves generalizing memory with
  | nil => exact absurd member List.not_mem_nil
  | cons move moves ih =>
      rcases move with ⟨first, read⟩
      rcases List.pairwise_cons.mp ordered with ⟨spares, later⟩
      rw [transfer]
      rcases List.mem_cons.mp member with same | inLater
      · cases same
        rw [transfer_other fun move inLater => (spares move inLater).1.symm]
        exact Function.update_self ..
      · rw [ih later inLater]
        exact Function.update_of_ne (spares _ inLater).2.symm _ _

end FudanOS.Library.Transfer
