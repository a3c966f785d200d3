import Mathlib.Data.List.Basic
import Mathlib.Algebra.BigOperators.Group.Finset.Basic
import Mathlib.Algebra.GroupWithZero.Nat

/-!
# Runs of a labelled transition relation

A system is a relation `step source label target`, and its clients promise a
discipline `allowed source label` which may read the state in which the label
is issued.  A `Run` records the labels of an execution whose steps are all
taken by the system and allowed by the discipline.

The module also gives the executable side: a step function which may refuse a
label is iterated over a list of labels, and every successful iteration is a
`Run`.
-/

namespace FudanOS.Library.Runs

variable {State Label Stop : Type*}

/-- Two clients, as examples have them. -/
instance neZeroTwo : NeZero 2 := ⟨Nat.succ_ne_zero 1⟩

/-- Three clients. -/
instance neZeroThree : NeZero 3 := ⟨Nat.succ_ne_zero 2⟩

/-- Executions of `step` whose every label satisfies `allowed` when issued. -/
inductive Run
    (step : State → Label → State → Prop)
    (allowed : State → Label → Prop)
    (start : State) : List Label → State → Prop where
  | nil : Run step allowed start [] start
  | snoc
      (front : Run step allowed start labels middle)
      (permitted : allowed middle label)
      (taken : step middle label target) :
      Run step allowed start (labels ++ [label]) target

namespace Run

variable
    {step : State → Label → State → Prop}
    {allowed : State → Label → Prop}
    {start finish : State}
    {labels : List Label}

/-- A property kept by every allowed step holds at the end of every run. -/
theorem invariant
    {holds : State → Prop}
    (run : Run step allowed start labels finish)
    (initially : holds start)
    (preserved :
      ∀ source label target,
        holds source → allowed source label →
          step source label target → holds target) :
    holds finish := by
  induction run with
  | nil => exact initially
  | snoc _ permitted taken ih =>
      exact preserved _ _ _ ih permitted taken

/-- Weakening the discipline keeps every run. -/
theorem mono
    {weaker : State → Label → Prop}
    (run : Run step allowed start labels finish)
    (weaken :
      ∀ source label, allowed source label → weaker source label) :
    Run step weaker start labels finish := by
  induction run with
  | nil => exact nil
  | snoc _ permitted taken ih =>
      exact snoc ih (weaken _ _ permitted) taken

theorem cons
    {label : Label}
    {middle : State}
    (permitted : allowed start label)
    (taken : step start label middle)
    (rest : Run step allowed middle labels finish) :
    Run step allowed start (label :: labels) finish := by
  induction rest with
  | nil =>
      exact snoc nil permitted taken
  | snoc _ laterPermitted laterTaken ih =>
      exact snoc ih laterPermitted laterTaken

end Run

/-- Iterate a step function, stopping at the first refused label. -/
def execute
    (step : State → Label → Except Stop State) :
    State → List Label → Except Stop State
  | start, [] => .ok start
  | start, label :: rest =>
      match step start label with
      | .ok middle => execute step middle rest
      | .error stop => .error stop

/-- The relation computed by a step function. -/
def Takes
    (step : State → Label → Except Stop State)
    (source : State)
    (label : Label)
    (target : State) : Prop :=
  step source label = .ok target

/--
A successful iteration is a run, provided each label is allowed in the state
the iteration has reached.
-/
theorem Run.of_execute
    {step : State → Label → Except Stop State}
    {allowed : State → Label → Prop}
    {start finish : State}
    {labels : List Label}
    (executed : execute step start labels = .ok finish)
    (permitted : ∀ state, ∀ label ∈ labels, allowed state label) :
    Run (Takes step) allowed start labels finish := by
  induction labels generalizing start with
  | nil =>
      simp only [execute, Except.ok.injEq] at executed
      subst executed
      exact Run.nil
  | cons label rest ih =>
      unfold execute at executed
      split at executed
      · rename_i middle taken
        exact Run.cons (permitted _ _ (by simp)) taken
          (ih executed fun state later member =>
            permitted state later (by simp [member]))
      · simp at executed

/-- A computed check of the state reached by an iteration. -/
def reaches
    (step : State → Label → Except Stop State)
    (start : State)
    (labels : List Label)
    (check : State → Bool) : Bool :=
  match execute step start labels with
  | .ok finish => check finish
  | .error _ => false

theorem exists_of_reaches
    {step : State → Label → Except Stop State}
    {start : State}
    {labels : List Label}
    {check : State → Bool}
    (reached : reaches step start labels check = true) :
    ∃ finish,
      execute step start labels = .ok finish ∧ check finish = true := by
  unfold reaches at reached
  split at reached
  · rename_i finish executed
    exact ⟨finish, executed, reached⟩
  · simp at reached

/-- Iterate a step function as long as a computed discipline allows it. -/
def executeChecked
    (step : State → Label → Except Stop State)
    (check : State → Label → Bool) :
    State → List Label → Option State
  | start, [] => some start
  | start, label :: rest =>
      if check start label then
        match step start label with
        | .ok middle => executeChecked step check middle rest
        | .error _ => none
      else
        none

theorem Run.of_executeChecked
    {step : State → Label → Except Stop State}
    {check : State → Label → Bool}
    {allowed : State → Label → Prop}
    (sound : ∀ state label, check state label = true → allowed state label)
    {start finish : State}
    {labels : List Label}
    (executed : executeChecked step check start labels = some finish) :
    Run (Takes step) allowed start labels finish := by
  induction labels generalizing start with
  | nil =>
      simp only [executeChecked, Option.some.injEq] at executed
      subst executed
      exact Run.nil
  | cons label rest ih =>
      unfold executeChecked at executed
      split_ifs at executed with checked
      split at executed
      · rename_i middle taken
        exact Run.cons (sound _ _ checked) taken (ih executed)
      · simp at executed

/-! ## Sums over the parties of a system -/

/-- Changing one of the parties in a sum moves it by the difference. -/
theorem sum_update_add_of_mem
    {Party Value : Type*}
    [DecidableEq Party]
    (weight : Value → Nat)
    (phase : Party → Value)
    {parties : Finset Party}
    {party : Party}
    (member : party ∈ parties)
    (value : Value) :
    (∑ other ∈ parties, weight (Function.update phase party value other)) +
        weight (phase party) =
      (∑ other ∈ parties, weight (phase other)) + weight value := by
  have split :
      ∀ f : Party → Value,
        ∑ other ∈ parties, weight (f other) =
          weight (f party) +
            ∑ other ∈ parties.erase party, weight (f other) := by
    intro f
    exact (Finset.add_sum_erase parties
      (fun other => weight (f other)) member).symm
  have others :
      ∑ other ∈ parties.erase party,
          weight (Function.update phase party value other) =
        ∑ other ∈ parties.erase party, weight (phase other) := by
    apply Finset.sum_congr rfl
    intro other member
    rw [Function.update_of_ne (Finset.ne_of_mem_erase member)]
  rw [split (Function.update phase party value), split phase, others,
    Function.update_self]
  omega

/-- Changing a party which is not in a sum does not move it. -/
theorem sum_update_of_notMem
    {Party Value : Type*}
    [DecidableEq Party]
    (weight : Value → Nat)
    (phase : Party → Value)
    {parties : Finset Party}
    {party : Party}
    (outside : party ∉ parties)
    (value : Value) :
    ∑ other ∈ parties, weight (Function.update phase party value other) =
      ∑ other ∈ parties, weight (phase other) := by
  apply Finset.sum_congr rfl
  rintro other member
  rw [Function.update_of_ne]
  rintro rfl
  exact outside member

/-- Changing one party moves a sum by the difference at that party. -/
theorem sum_update_add
    {Party Value : Type*}
    [Fintype Party]
    [DecidableEq Party]
    (weight : Value → Nat)
    (phase : Party → Value)
    (party : Party)
    (value : Value) :
    (∑ other, weight (Function.update phase party value other)) +
        weight (phase party) =
      (∑ other, weight (phase other)) + weight value :=
  sum_update_add_of_mem weight phase (Finset.mem_univ party) value

end FudanOS.Library.Runs
