import FudanOS.Library.Programs
import Mathlib.Data.Set.Basic
import Mathlib.Logic.Nontrivial.Basic

/-!
# Programs which write without reading

A store has a control part, on which a program may branch, and cells, which it
only writes.  What such a program leaves in the cells is an overlay: a cell
either gets a value which does not depend on what was found in any cell, or
still has what was found in it.  `Blind` says this of a program together with
a postcondition on the overlay, and has one rule for each construct.
-/

namespace FudanOS.Library.Overlay

open FudanOS.Library.Programs

structure Store (Control Location Cell : Type) where
  control : Control
  content : Location → Cell

variable {Control Location Cell Stop Value Result Item : Type}

/-- What the cells have when `written` is written over what was found. -/
def overlaid
    (written : Location → Option Cell)
    (found : Location → Cell) :
    Location → Cell :=
  fun location => (written location).getD (found location)

/-- What is written when `change` is written after `written`. -/
def patch (change written : Location → Option Cell) :
    Location → Option Cell :=
  fun location => (change location).or (written location)

@[simp]
theorem overlaid_none (found : Location → Cell) :
    overlaid (fun _ => none) found = found := by
  rfl

theorem overlaid_patch
    (change written : Location → Option Cell)
    (found : Location → Cell) :
    overlaid (patch change written) found = overlaid change (overlaid written found) := by
  funext location
  cases written_here : change location <;> simp [overlaid, patch, written_here]

theorem patch_of_none
    {change written : Location → Option Cell}
    {location : Location}
    (unchanged : change location = none) :
    patch change written location = written location := by
  simp [patch, unchanged]

theorem isSome_patch
    (change written : Location → Option Cell)
    (location : Location) :
    (patch change written location).isSome =
      ((change location).isSome || (written location).isSome) := by
  simp [patch]

/--
A cell has the same value whatever was found there if and only if it has been
written.
-/
theorem overlaid_eq_iff
    [Nontrivial Cell]
    (written : Location → Option Cell)
    (found : Location → Cell)
    (location : Location) :
    (∀ other : Location → Cell,
        (∀ elsewhere, elsewhere ≠ location →
          other elsewhere = found elsewhere) →
        overlaid written other location = overlaid written found location) ↔
      (written location).isSome := by
  classical
  constructor
  · intro same
    by_contra unwritten
    have absent : written location = none :=
      Option.not_isSome_iff_eq_none.mp unwritten
    rcases exists_ne (found location) with ⟨cell, different⟩
    have kept :=
      same (Function.update found location cell) fun elsewhere apart =>
        Function.update_of_ne apart cell found
    have changed : cell = found location := by
      simpa [overlaid, absent] using kept
    exact different changed
  · intro present other _
    rcases Option.isSome_iff_exists.mp present with ⟨cell, stored⟩
    simp [overlaid, stored]

/-! ## The constructs -/

/-- The control part is read. -/
def control : Program (Store Control Location Cell) Stop Control := do
  return (← get).control

/-- The control part is replaced. -/
def setControl (next : Control) :
    Program (Store Control Location Cell) Stop Unit :=
  modify fun store => { store with control := next }

/-- The cells where `change` has a value get this value. -/
def write (change : Location → Option Cell) :
    Program (Store Control Location Cell) Stop Unit :=
  modify fun store => { store with content := overlaid change store.content }

/--
From the control part `start` and the overlay `written` the program stops, or
returns with `post`, whatever was found in the cells.
-/
def Blind
    (program : Program (Store Control Location Cell) Stop Value)
    (start : Control)
    (written : Location → Option Cell)
    (post : Value → Control → (Location → Option Cell) → Prop) : Prop :=
  (∃ stop, ∀ found, program.run ⟨start, overlaid written found⟩ = .error stop) ∨
    ∃ value finish after,
      (∀ found,
        program.run ⟨start, overlaid written found⟩ =
          .ok (value, ⟨finish, overlaid after found⟩)) ∧
      post value finish after

namespace Blind

variable
    {program : Program (Store Control Location Cell) Stop Value}
    {start : Control}
    {written : Location → Option Cell}
    {post : Value → Control → (Location → Option Cell) → Prop}

theorem mono
    {weaker : Value → Control → (Location → Option Cell) → Prop}
    (blind : Blind program start written post)
    (implies :
      ∀ value finish after,
        post value finish after → weaker value finish after) :
    Blind program start written weaker := by
  rcases blind with stops | ⟨value, finish, after, runs, holds⟩
  · exact Or.inl stops
  · exact Or.inr ⟨value, finish, after, runs, implies _ _ _ holds⟩

theorem pure
    {value : Value}
    (holds : post value start written) :
    Blind (Pure.pure value : Program (Store Control Location Cell) Stop Value)
      start written post :=
  Or.inr ⟨value, start, written, fun _ => rfl, holds⟩

theorem throw (stop : Stop) :
    Blind
      (throw stop : Program (Store Control Location Cell) Stop Value)
      start written post :=
  Or.inl ⟨stop, fun _ => rfl⟩

theorem bind
    {next : Value → Program (Store Control Location Cell) Stop Result}
    {last : Result → Control → (Location → Option Cell) → Prop}
    (first :
      Blind program start written fun value finish after =>
        Blind (next value) finish after last) :
    Blind (program >>= next) start written last := by
  rcases first with ⟨stop, stops⟩ | ⟨value, finish, after, runs, rest⟩
  · refine Or.inl ⟨stop, fun found => ?_⟩
    rw [StateT.run_bind, stops]
    rfl
  · rcases rest with ⟨stop, stops⟩ | ⟨result, last, final, returns, holds⟩
    · refine Or.inl ⟨stop, fun found => ?_⟩
      rw [StateT.run_bind, runs]
      exact stops found
    · refine Or.inr ⟨result, last, final, fun found => ?_, holds⟩
      rw [StateT.run_bind, runs]
      exact returns found

theorem control
    {post : Control → Control → (Location → Option Cell) → Prop}
    (holds : post start start written) :
    Blind
      (control : Program (Store Control Location Cell) Stop Control)
      start written post :=
  Or.inr ⟨start, start, written, fun _ => rfl, holds⟩

theorem setControl
    {next : Control}
    {post : Unit → Control → (Location → Option Cell) → Prop}
    (holds : post () next written) :
    Blind
      (setControl next : Program (Store Control Location Cell) Stop Unit)
      start written post :=
  Or.inr ⟨(), next, written, fun _ => rfl, holds⟩

theorem write
    {change : Location → Option Cell}
    {post : Unit → Control → (Location → Option Cell) → Prop}
    (holds : post () start (patch change written)) :
    Blind
      (write change : Program (Store Control Location Cell) Stop Unit)
      start written post := by
  refine Or.inr ⟨(), start, patch change written, fun found => ?_, holds⟩
  rw [overlaid_patch]
  rfl

/-- A conditional, by cases on its condition. -/
theorem ite
    {condition : Prop}
    [Decidable condition]
    {yes no : Program (Store Control Location Cell) Stop Value}
    (whenTrue : condition → Blind yes start written post)
    (whenFalse : ¬ condition → Blind no start written post) :
    Blind (if condition then yes else no) start written post := by
  by_cases holds : condition
  · rw [if_pos holds]
    exact whenTrue holds
  · rw [if_neg holds]
    exact whenFalse holds

/-- A loop over a list, with an invariant on the items still to come. -/
theorem foldlM
    {body :
      Value → Item → Program (Store Control Location Cell) Stop Value}
    (invariant :
      List Item → Value → Control → (Location → Option Cell) → Prop)
    (preserved :
      ∀ item rest value state overlay,
        invariant (item :: rest) value state overlay →
          Blind (body value item) state overlay (invariant rest))
    {items : List Item}
    {initial : Value}
    (initially : invariant items initial start written) :
    Blind (items.foldlM body initial) start written (invariant []) := by
  induction items generalizing initial start written with
  | nil => exact pure initially
  | cons item rest ih =>
      rw [List.foldlM_cons]
      refine bind ((preserved item rest _ _ _ initially).mono ?_)
      intro value middle overlay holds
      exact ih holds

/-- A program which has returned once returns for everything that is found. -/
theorem of_run
    {found : Location → Cell}
    {value : Value}
    {finish : Store Control Location Cell}
    (blind : Blind program start (fun _ => none) post)
    (returned : program.run ⟨start, found⟩ = .ok (value, finish)) :
    ∃ after,
      post value finish.control after ∧
      finish.content = overlaid after found ∧
      ∀ other,
        program.run ⟨start, other⟩ =
          .ok (value, ⟨finish.control, overlaid after other⟩) := by
  rcases blind with ⟨stop, stops⟩ | ⟨result, last, after, runs, holds⟩
  · have stopped := (stops found).symm.trans returned
    cases stopped
  · have same := (runs found).symm.trans returned
    cases same
    exact ⟨after, holds, rfl, runs⟩

end Blind

end FudanOS.Library.Overlay
