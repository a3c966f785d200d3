import Mathlib.Data.List.Basic

/-!
# Programs which change a state and may stop

A program reads and writes a state and either returns a value or stops with a
reason.  `Ensures accepts program start post` says that from `start` it
returns with `post`, or stops for a reason in `accepts`.  The rules below
compute this condition through the constructs of a program, and give the
induction rule for a loop over a list.
-/

namespace FudanOS.Library.Programs

/-- A program with state `State` which returns a `Value` or stops. -/
abbrev Program (State Stop Value : Type) :=
  StateT State (Except Stop) Value

variable {State Stop Value Result Item : Type}

/-- The program returns with `post` or stops for an accepted reason. -/
def Ensures
    (accepts : Stop → Prop)
    (program : Program State Stop Value)
    (start : State)
    (post : Value → State → Prop) : Prop :=
  match program.run start with
  | .ok (value, finish) => post value finish
  | .error stop => accepts stop

namespace Ensures

variable
    {accepts : Stop → Prop}
    {program : Program State Stop Value}
    {start : State}
    {post : Value → State → Prop}

theorem mono
    {weaker : Value → State → Prop}
    (ensures : Ensures accepts program start post)
    (implies :
      ∀ value finish, post value finish → weaker value finish) :
    Ensures accepts program start weaker := by
  unfold Ensures at ensures ⊢
  split
  · rename_i value finish returned
    rw [returned] at ensures
    exact implies value finish ensures
  · rename_i stop stopped
    rwa [stopped] at ensures

/-- Two facts about one program hold together. -/
theorem and
    {also : Value → State → Prop}
    (first : Ensures accepts program start post)
    (second : Ensures accepts program start also) :
    Ensures accepts program start fun value finish =>
      post value finish ∧ also value finish := by
  unfold Ensures at first second ⊢
  split
  · rename_i value finish returned
    rw [returned] at first second
    exact ⟨first, second⟩
  · rename_i stop stopped
    rwa [stopped] at first

/-- A fact about the results of a program which may stop for any reason. -/
theorem also
    {results : Value → State → Prop}
    (first : Ensures accepts program start post)
    (second : Ensures (fun _ => True) program start results) :
    Ensures accepts program start fun value finish =>
      post value finish ∧ results value finish := by
  unfold Ensures at first second ⊢
  split
  · rename_i value finish returned
    rw [returned] at first second
    exact ⟨first, second⟩
  · rename_i stop stopped
    rwa [stopped] at first

/-- More reasons may be accepted. -/
theorem accepting
    {others : Stop → Prop}
    (ensures : Ensures accepts program start post)
    (implies : ∀ stop, accepts stop → others stop) :
    Ensures others program start post := by
  unfold Ensures at ensures ⊢
  split
  · rename_i value finish returned
    rwa [returned] at ensures
  · rename_i stop stopped
    rw [stopped] at ensures
    exact implies stop ensures

/-- What a program which returned has established. -/
theorem of_run
    {value : Value}
    {finish : State}
    (ensures : Ensures accepts program start post)
    (returned : program.run start = .ok (value, finish)) :
    post value finish := by
  unfold Ensures at ensures
  rwa [returned] at ensures

/-- Without accepted reasons to stop, the program returns. -/
theorem returns
    (ensures : Ensures (fun _ => False) program start post) :
    ∃ value finish,
      program.run start = .ok (value, finish) ∧ post value finish := by
  unfold Ensures at ensures
  split at ensures
  · rename_i value finish returned
    exact ⟨value, finish, returned, ensures⟩
  · exact absurd ensures id

/-- A program which cannot return stops. -/
theorem stops
    (ensures : Ensures accepts program start fun _ _ => False) :
    ∃ stop, program.run start = .error stop ∧ accepts stop := by
  unfold Ensures at ensures
  split at ensures
  · exact absurd ensures id
  · rename_i stop stopped
    exact ⟨stop, stopped, ensures⟩

end Ensures

/-- What is computed in two parts returned, so both parts returned. -/
theorem exists_of_bind_eq_ok
    {first : Except Stop Value}
    {next : Value → Except Stop Result}
    {result : Result}
    (returned : first >>= next = .ok result) :
    ∃ value, first = .ok value ∧ next value = .ok result := by
  cases first with
  | error stop => cases returned
  | ok value => exact ⟨value, rfl, returned⟩

section Rules

variable
    {accepts : Stop → Prop}
    {start : State}

@[simp]
theorem ensures_pure
    {value : Value}
    {post : Value → State → Prop} :
    Ensures accepts (pure value : Program State Stop Value) start post ↔
      post value start := by
  rfl

@[simp]
theorem ensures_bind
    {program : Program State Stop Value}
    {next : Value → Program State Stop Result}
    {post : Result → State → Prop} :
    Ensures accepts (program >>= next) start post ↔
      Ensures accepts program start fun value middle =>
        Ensures accepts (next value) middle post := by
  unfold Ensures
  rw [StateT.run_bind]
  cases program.run start <;> rfl

@[simp]
theorem ensures_map
    {program : Program State Stop Value}
    {convert : Value → Result}
    {post : Result → State → Prop} :
    Ensures accepts (convert <$> program) start post ↔
      Ensures accepts program start fun value finish =>
        post (convert value) finish := by
  rw [map_eq_pure_bind, ensures_bind]
  rfl

@[simp]
theorem ensures_get
    {post : State → State → Prop} :
    Ensures accepts (get : Program State Stop State) start post ↔
      post start start := by
  rfl

@[simp]
theorem ensures_set
    {state : State}
    {post : PUnit → State → Prop} :
    Ensures accepts (set state : Program State Stop PUnit) start post ↔
      post ⟨⟩ state := by
  rfl

@[simp]
theorem ensures_modify
    {change : State → State}
    {post : PUnit → State → Prop} :
    Ensures accepts (modify change : Program State Stop PUnit) start post ↔
      post ⟨⟩ (change start) := by
  rfl

@[simp]
theorem ensures_throw
    {stop : Stop}
    {post : Value → State → Prop} :
    Ensures accepts (throw stop : Program State Stop Value) start post ↔
      accepts stop := by
  rfl

/-- A conditional, by cases on its condition. -/
theorem ensures_ite
    {condition : Prop}
    [Decidable condition]
    {yes no : Program State Stop Value}
    {post : Value → State → Prop}
    (whenTrue : condition → Ensures accepts yes start post)
    (whenFalse : ¬ condition → Ensures accepts no start post) :
    Ensures accepts (if condition then yes else no) start post := by
  by_cases holds : condition
  · rw [if_pos holds]
    exact whenTrue holds
  · rw [if_neg holds]
    exact whenFalse holds

/--
A loop over a list.  The invariant speaks of the items still to come and of
the value which the loop carries.
-/
theorem ensures_foldlM
    {body : Value → Item → Program State Stop Value}
    (invariant : List Item → Value → State → Prop)
    (preserved :
      ∀ item rest value state, invariant (item :: rest) value state →
        Ensures accepts (body value item) state (invariant rest))
    {items : List Item}
    {initial : Value}
    (initially : invariant items initial start) :
    Ensures accepts (items.foldlM body initial) start (invariant []) := by
  induction items generalizing initial start with
  | nil => exact initially
  | cons item rest ih =>
      rw [List.foldlM_cons, ensures_bind]
      refine (preserved item rest initial start initially).mono ?_
      intro value middle holds
      exact ih holds

end Rules

end FudanOS.Library.Programs
