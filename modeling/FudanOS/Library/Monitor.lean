import Mathlib.Logic.Function.Basic
import Mathlib.Tactic.Common

/-!
# A resource behind a lock

Processes go through phases, and those in a phase which is `inside` have taken
a lock which one process holds at a time.  The lock protects a resource.  The
holder may be in the middle of a change, so what is known of the resource
depends on the phase of the holder; `idle` stands for it when nobody holds the
lock.  The rules below say how the invariant survives a step.
-/

namespace FudanOS.Library.Monitor

variable
    {Proc Phase : Type*}

/-- The phase of the process which holds the lock. -/
def holding (idle : Phase) (lock : Option Proc) (procs : Proc → Phase) :
    Phase :=
  match lock with
  | some proc => procs proc
  | none => idle

/-- The processes inside are the holder, and the resource is as it says. -/
structure Invariant
    (idle : Phase)
    (inside : Phase → Bool)
    (resource : Phase → Prop)
    (lock : Option Proc)
    (procs : Proc → Phase) : Prop where
  guarded : ∀ proc, inside (procs proc) = true → lock = some proc
  held : ∀ proc, lock = some proc → inside (procs proc) = true
  resource : resource (holding idle lock procs)

namespace Invariant

variable
    {idle : Phase}
    {inside : Phase → Bool}
    {before after : Phase → Prop}
    {lock : Option Proc}
    {procs : Proc → Phase}
    {proc : Proc}
    {phase : Phase}

/-- What the process inside knows of the resource. -/
theorem resource_of_inside
    (invariant : Invariant idle inside before lock procs)
    (isInside : inside (procs proc) = true) :
    before (procs proc) := by
  have known := invariant.resource
  unfold holding at known
  rwa [invariant.guarded proc isInside] at known

/-- What is known of the resource while nobody holds the lock. -/
theorem resource_of_unlocked
    (invariant : Invariant idle inside before none procs) :
    before idle :=
  invariant.resource

/-- Nothing happens to the processes. -/
theorem mono
    (invariant : Invariant idle inside before lock procs)
    (implies : ∀ phase, before phase → after phase) :
    Invariant idle inside after lock procs :=
  ⟨invariant.guarded, invariant.held, implies _ invariant.resource⟩

variable [DecidableEq Proc]

/-- The holder makes a step and keeps the lock. -/
theorem go
    (invariant : Invariant idle inside before lock procs)
    (isInside : inside (procs proc) = true)
    (stays : inside phase = true)
    (known : after phase) :
    Invariant idle inside after lock
      (Function.update procs proc phase) := by
  have owns := invariant.guarded proc isInside
  subst owns
  refine ⟨?_, ?_, ?_⟩
  · intro other otherInside
    by_cases same : other = proc
    · rw [same]
    · rw [Function.update_of_ne same] at otherInside
      exact invariant.guarded other otherInside
  · intro other owned
    cases owned
    rw [Function.update_self]
    exact stays
  · unfold holding
    dsimp only
    rw [Function.update_self]
    exact known

/-- The holder releases the lock. -/
theorem release
    (invariant : Invariant idle inside before lock procs)
    (isInside : inside (procs proc) = true)
    (leaves : inside phase = false)
    (known : after idle) :
    Invariant idle inside after none
      (Function.update procs proc phase) := by
  have owns := invariant.guarded proc isInside
  refine ⟨?_, ?_, known⟩
  · intro other otherInside
    by_cases same : other = proc
    · rw [same, Function.update_self, leaves] at otherInside
      cases otherInside
    · rw [Function.update_of_ne same] at otherInside
      have alsoOwns := invariant.guarded other otherInside
      rw [owns] at alsoOwns
      exact absurd (Option.some.inj alsoOwns).symm same
  · intro other owned
    cases owned

/-- A process outside makes a step and stays outside. -/
theorem outside
    (invariant : Invariant idle inside before lock procs)
    (isOutside : inside (procs proc) = false)
    (stays : inside phase = false)
    (implies : ∀ held, before held → after held) :
    Invariant idle inside after lock
      (Function.update procs proc phase) := by
  have different : ∀ other, lock = some other → other ≠ proc := by
    intro other owned
    rintro rfl
    rw [invariant.held other owned] at isOutside
    cases isOutside
  refine ⟨?_, ?_, ?_⟩
  · intro other otherInside
    by_cases same : other = proc
    · rw [same, Function.update_self, stays] at otherInside
      cases otherInside
    · rw [Function.update_of_ne same] at otherInside
      exact invariant.guarded other otherInside
  · intro other owned
    rw [Function.update_of_ne (different other owned)]
    exact invariant.held other owned
  · have known := implies _ invariant.resource
    unfold holding at known ⊢
    cases owner : lock with
    | none =>
        rw [owner] at known
        exact known
    | some other =>
        rw [owner] at known
        dsimp only at known ⊢
        rw [Function.update_of_ne (different other owner)]
        exact known

/-- A process takes the lock. -/
theorem acquire
    (invariant : Invariant idle inside before none procs)
    (enters : inside phase = true)
    (known : after phase) :
    Invariant idle inside after (some proc)
      (Function.update procs proc phase) := by
  refine ⟨?_, ?_, ?_⟩
  · intro other otherInside
    by_cases same : other = proc
    · rw [same]
    · rw [Function.update_of_ne same] at otherInside
      have owns := invariant.guarded other otherInside
      cases owns
  · intro other owned
    cases owned
    rw [Function.update_self]
    exact enters
  · unfold holding
    dsimp only
    rw [Function.update_self]
    exact known

end Invariant

end FudanOS.Library.Monitor
