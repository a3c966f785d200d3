import FudanOS.Common.RbErase

/-!
# Runs of the red-black tree

Nodes are inserted into an empty tree and erased from it, one call after the
other.  Beside the memory the state has the nodes which have been inserted and
not erased, as a caller would count them; the functions do not read them.
-/

namespace FudanOS.Common.RbTree

open FudanOS.Library
open FudanOS.Library.RedBlack
open FudanOS.Library.Runs

/-! ## Lookup -/

/-- Neither of two nodes comes before the other. -/
def Equal (cmp : Pointer → Pointer → Bool) (node other : Pointer) : Prop :=
  cmp node other = false ∧ cmp other node = false

instance (cmp : Pointer → Pointer → Bool) (node other : Pointer) :
    Decidable (Equal cmp node other) :=
  inferInstanceAs (Decidable (_ ∧ _))

/-- What a search for a node returns. -/
def Found
    (cmp : Pointer → Pointer → Bool)
    (node : Pointer)
    (names : List Pointer)
    (found : Pointer) : Prop :=
  (found ∈ names ∧ Equal cmp node found) ∨
    (found = 0 ∧ ∀ other ∈ names, ¬ Equal cmp node other)

section Lookup

variable
    {cmp : Pointer → Pointer → Bool}
    {memory : Memory}
    {node above : Pointer}
    {tree : RedBlack.Tree Pointer}

/-- A node which is not equal to the rest is searched for on one side. -/
theorem Found.extend
    {names inner : List Pointer}
    {found : Pointer}
    (inside : inner ⊆ names)
    (rest :
      ∀ other ∈ names, other ∉ inner → ¬ Equal cmp node other)
    (onSide : Found cmp node inner found) :
    Found cmp node names found := by
  rcases onSide with ⟨member, equal⟩ | ⟨null, none⟩
  · exact Or.inl ⟨inside member, equal⟩
  · refine Or.inr ⟨null, fun other member => ?_⟩
    by_cases onSide : other ∈ inner
    · exact none other onSide
    · exact rest other member onSide

theorem lookupFrom_spec
    (trans :
      ∀ left middle right, cmp left middle = true →
        cmp middle right = true → cmp left right = true)
    (stored : Stored memory above tree)
    (sorted :
      tree.names.Pairwise fun first second => cmp first second = true)
    (node : Pointer)
    (fuel : Nat) :
    match lookupFrom cmp node memory fuel (rootOf tree) with
    | .ok found => Found cmp node tree.names found
    | .error fault => fault = .unfinished ∧ fuel ≤ tree.depth := by
  induction tree generalizing above fuel with
  | nil =>
      cases fuel with
      | zero => exact ⟨rfl, Nat.le_refl 0⟩
      | succ fuel =>
          rw [lookupFrom, if_pos (show rootOf .nil = 0 from rfl)]
          exact Or.inr ⟨rfl, fun _ member => absurd member List.not_mem_nil⟩
  | node color left name right leftIh rightIh =>
      rcases stored with ⟨isNode, -, toLeft, toRight, inLeft, inRight⟩
      rcases List.pairwise_append.mp sorted with
        ⟨sortedLeft, sortedRest, across⟩
      rcases List.pairwise_cons.mp sortedRest with
        ⟨behind, sortedRight⟩
      cases fuel with
      | zero => exact ⟨rfl, Nat.zero_le _⟩
      | succ fuel =>
          have one :
              lookupFrom cmp node memory (fuel + 1) name =
                if cmp node name then
                  lookupFrom cmp node memory fuel (rootOf left)
                else if cmp name node then
                  lookupFrom cmp node memory fuel (rootOf right)
                else .ok name := by
            rw [lookupFrom, if_neg isNode.1, load_eq isNode.1,
              load_eq isNode.1, toLeft, toRight]
            rfl
          rw [rootOf, one]
          by_cases less : cmp node name = true
          · rw [if_pos less]
            have onLeft := leftIh inLeft sortedLeft fuel
            revert onLeft
            cases lookupFrom cmp node memory fuel (rootOf left) with
            | error fault =>
                rintro ⟨unfinished, short⟩
                refine ⟨unfinished, ?_⟩
                simp only [RedBlack.Tree.depth]
                omega
            | ok found =>
                refine Found.extend (List.subset_append_left _ _) ?_
                rintro other member notLeft ⟨notLess, -⟩
                rcases List.mem_append.mp member with inside | rest
                · exact notLeft inside
                · rcases List.mem_cons.mp rest with rfl | inside
                  · rw [less] at notLess
                    cases notLess
                  · rw [trans _ _ _ less (behind other inside)] at notLess
                    cases notLess
          · rw [if_neg less]
            by_cases greater : cmp name node = true
            · rw [if_pos greater]
              have onRight := rightIh inRight sortedRight fuel
              revert onRight
              cases lookupFrom cmp node memory fuel (rootOf right) with
              | error fault =>
                  rintro ⟨unfinished, short⟩
                  refine ⟨unfinished, ?_⟩
                  simp only [RedBlack.Tree.depth]
                  omega
              | ok found =>
                  refine Found.extend ?_ ?_
                  · exact fun other member => List.mem_append.mpr
                      (Or.inr (List.mem_cons_of_mem _ member))
                  · rintro other member notRight ⟨-, notGreater⟩
                    rcases List.mem_append.mp member with inside | rest
                    · have before := across other inside name
                        List.mem_cons_self
                      rw [trans _ _ _ before greater] at notGreater
                      cases notGreater
                    · rcases List.mem_cons.mp rest with rfl | inside
                      · rw [greater] at notGreater
                        cases notGreater
                      · exact notRight inside
            · rw [if_neg greater]
              refine Or.inl ⟨by simp [RedBlack.Tree.names], ?_, ?_⟩
              · simpa using less
              · simpa using greater

theorem firstFrom_spec
    (stored : Stored memory above tree)
    (nonempty : tree ≠ .nil)
    (fuel : Nat) :
    match firstFrom memory fuel (rootOf tree) with
    | .ok found => tree.names.head? = some found
    | .error fault => fault = .unfinished ∧ fuel ≤ tree.depth := by
  induction tree generalizing above fuel with
  | nil => exact absurd rfl nonempty
  | node color left name right leftIh =>
      rcases stored with ⟨isNode, -, toLeft, -, inLeft, -⟩
      cases fuel with
      | zero => exact ⟨rfl, Nat.zero_le _⟩
      | succ fuel =>
          have one :
              firstFrom memory (fuel + 1) name =
                if rootOf left ≠ 0 then
                  firstFrom memory fuel (rootOf left)
                else .ok name := by
            rw [firstFrom]
            refine (bind_of_eq (load_eq isNode.1 _)).trans ?_
            rw [toLeft]
            rfl
          rw [rootOf, one]
          by_cases empty : left = .nil
          · subst empty
            rw [if_neg fun nonnull => nonnull rfl]
            rfl
          · rw [if_pos (inLeft.rootOf_ne_zero empty)]
            have onLeft := leftIh inLeft empty fuel
            revert onLeft
            cases firstFrom memory fuel (rootOf left) with
            | error fault =>
                rintro ⟨unfinished, short⟩
                refine ⟨unfinished, ?_⟩
                simp only [RedBlack.Tree.depth]
                omega
            | ok found =>
                intro isFirst
                simp [RedBlack.Tree.names, List.head?_append, isFirst]

/-- `_rb_first` is the first of the nodes, or `NULL`. -/
theorem rbFirst_spec
    (whole : Whole memory tree)
    {fuel : Nat}
    (enough : tree.depth < fuel) :
    rbFirst fuel memory = .ok (tree.names.head?.getD 0) := by
  unfold rbFirst
  rw [whole.1]
  by_cases empty : tree = .nil
  · subst empty
    rfl
  · rw [if_neg (whole.2.rootOf_ne_zero empty)]
    have first := firstFrom_spec whole.2 empty fuel
    revert first
    cases firstFrom memory fuel (rootOf tree) with
    | error fault =>
        rintro ⟨-, short⟩
        omega
    | ok found =>
        intro isFirst
        rw [isFirst]
        rfl

end Lookup

/-! ## The system -/

structure State where
  memory : Memory
  /-- The nodes which have been inserted and not erased. -/
  members : List Pointer

inductive Label where
  | insert (node : Pointer)
  | erase (node : Pointer)
  deriving DecidableEq

/-- One call, with the fuel for its loops. -/
def step (fuel : Nat) (cmp : Pointer → Pointer → Bool) (state : State) :
    Label → Except Fault State
  | .insert node => do
      let (result, memory) ← rbInsert fuel cmp node state.memory
      return ⟨memory,
        if result = 0 then node :: state.members else state.members⟩
  | .erase node => do
      let memory ← rbErase fuel node state.memory
      return ⟨memory, state.members.erase node⟩

/-- The caller inserts nodes which are out of the tree and erases others. -/
def Allowed (state : State) : Label → Prop
  | .insert node => IsNode node ∧ node ∉ state.members
  | .erase node => node ∈ state.members

instance (state : State) (label : Label) :
    Decidable (Allowed state label) := by
  cases label with
  | insert node =>
      exact inferInstanceAs
        (Decidable ((node ≠ 0 ∧ node &&& 7 = 0) ∧ node ∉ state.members))
  | erase node => exact inferInstanceAs (Decidable (node ∈ state.members))

/-- The memory holds a red-black tree of the members, in order. -/
structure Represents
    (cmp : Pointer → Pointer → Bool)
    (state : State)
    (tree : RedBlack.Tree Pointer) : Prop where
  whole : Whole state.memory tree
  isBlack : tree.color = .black
  balanced : ∃ height, Balanced tree height
  nodup : tree.names.Nodup
  sorted : tree.names.Pairwise fun first second => cmp first second = true
  members : tree.names.Perm state.members

section Runs

variable
    {cmp : Pointer → Pointer → Bool}
    {state : State}
    {tree : RedBlack.Tree Pointer}

theorem Represents.depth_le
    (represents : Represents cmp state tree) :
    tree.depth ≤ state.members.length :=
  represents.members.length_eq ▸ tree.depth_le_length

/-- What `_rb_insert` has done by the time it returns. -/
theorem Represents.insert
    (trans :
      ∀ left middle right, cmp left middle = true →
        cmp middle right = true → cmp left right = true)
    (represents : Represents cmp state tree)
    {node : Pointer}
    (allowed : Allowed state (.insert node))
    (fuel : Nat) :
    match rbInsert fuel cmp node state.memory with
    | .ok (result, after) =>
        (result = -1 ∧
          (∃ other ∈ state.members, Equal cmp node other) ∧
          after.root = state.memory.root ∧
          Agrees state.members state.memory after) ∨
        (result = 0 ∧
          (∀ other ∈ state.members, ¬ Equal cmp node other) ∧
          ∃ grown, Represents cmp ⟨after, node :: state.members⟩ grown)
    | .error fault =>
        fault = .unfinished ∧ fuel ≤ state.members.length := by
  rcases represents.balanced with ⟨height, balanced⟩
  have fresh : node ∉ tree.names := fun inside =>
    allowed.2 (represents.members.mem_iff.mp inside)
  have inserted :=
    rbInsert_spec trans allowed.1 represents.whole represents.nodup
      represents.isBlack balanced represents.sorted fresh fuel
  revert inserted
  cases rbInsert fuel cmp node state.memory with
  | error fault =>
      rintro ⟨unfinished, short⟩
      exact ⟨unfinished, Nat.le_trans short represents.depth_le⟩
  | ok pair =>
      rintro (⟨isFailed, ⟨other, member, equal⟩, root, agrees⟩ |
        ⟨isDone, front, back, names, held, before, behind⟩)
      · refine Or.inl ⟨isFailed, ⟨other, ?_, equal⟩, root, ?_⟩
        · exact represents.members.mem_iff.mp member
        · exact fun name inside =>
            agrees name (represents.members.mem_iff.mpr inside)
      · rcases held with
          ⟨grown, total, whole, grownNames, nodup, isBlack, grownBalanced⟩
        refine Or.inr ⟨isDone, ?_, grown, whole, isBlack,
          ⟨total, grownBalanced⟩, grownNames ▸ nodup, ?_, ?_⟩
        · rintro other member ⟨notLess, notGreater⟩
          have inside := represents.members.mem_iff.mpr member
          rw [names] at inside
          rcases List.mem_append.mp inside with early | late
          · rw [before other early] at notGreater
            cases notGreater
          · rw [behind other late] at notLess
            cases notLess
        · have sorted := represents.sorted
          rw [names] at sorted
          rcases List.pairwise_append.mp sorted with
            ⟨sortedFront, sortedBack, across⟩
          rw [grownNames]
          refine List.pairwise_append.mpr ⟨sortedFront,
            List.pairwise_cons.mpr ⟨behind, sortedBack⟩, ?_⟩
          intro first early second late
          rcases List.mem_cons.mp late with rfl | later
          · exact before first early
          · exact across first early second later
        · rw [grownNames]
          refine List.perm_middle.trans (List.Perm.cons _ ?_)
          rw [← names]
          exact represents.members

/-- What `_rb_erase` has done by the time it returns. -/
theorem Represents.erase
    (represents : Represents cmp state tree)
    {node : Pointer}
    (allowed : Allowed state (.erase node))
    (fuel : Nat) :
    match rbErase fuel node state.memory with
    | .ok after =>
        ∃ shrunk,
          Represents cmp ⟨after, state.members.erase node⟩ shrunk
    | .error fault =>
        fault = .unfinished ∧ fuel ≤ state.members.length := by
  rcases represents.balanced with ⟨height, balanced⟩
  have erased :=
    rbErase_spec represents.whole represents.nodup represents.isBlack
      balanced (represents.members.mem_iff.mpr allowed) fuel
  revert erased
  cases rbErase fuel node state.memory with
  | error fault =>
      rintro ⟨unfinished, short⟩
      exact ⟨unfinished, Nat.le_trans short represents.depth_le⟩
  | ok after =>
      rintro ⟨shrunk, total, whole, names, nodup, isBlack, shrunkBalanced⟩
      refine ⟨shrunk, whole, isBlack, ⟨total, shrunkBalanced⟩,
        names ▸ nodup, ?_, ?_⟩
      · rw [names]
        exact represents.sorted.sublist List.erase_sublist
      · rw [names]
        exact represents.members.erase node

/-- A call keeps the tree, and it returns if it has the fuel. -/
theorem Represents.step
    (trans :
      ∀ left middle right, cmp left middle = true →
        cmp middle right = true → cmp left right = true)
    (represents : Represents cmp state tree)
    {label : Label}
    (allowed : Allowed state label)
    (fuel : Nat) :
    match step fuel cmp state label with
    | .ok target => ∃ tree, Represents cmp target tree
    | .error fault =>
        fault = .unfinished ∧ fuel ≤ state.members.length := by
  cases label with
  | insert node =>
      have inserted := represents.insert trans allowed fuel
      rw [RbTree.step]
      revert inserted
      cases rbInsert fuel cmp node state.memory with
      | error fault => exact fun stopped => stopped
      | ok pair =>
          rcases pair with ⟨result, after⟩
          rintro (⟨rfl, -, root, agrees⟩ | ⟨rfl, -, grown, kept⟩)
          · have whole : Whole after tree := by
              refine ⟨root.trans represents.whole.1,
                represents.whole.2.frame fun name inside => ?_⟩
              exact agrees name (represents.members.mem_iff.mp inside)
            exact ⟨tree, { represents with whole := whole }⟩
          · exact ⟨grown, kept⟩
  | erase node =>
      have erased := represents.erase allowed fuel
      rw [RbTree.step]
      revert erased
      cases rbErase fuel node state.memory with
      | error fault => exact fun stopped => stopped
      | ok after => exact fun kept => kept

/-- The tree is empty, whatever the nodes hold. -/
def Initial (state : State) : Prop :=
  state.memory.root = 0 ∧ state.members = []

theorem run_represents
    (trans :
      ∀ left middle right, cmp left middle = true →
        cmp middle right = true → cmp left right = true)
    {fuel : Nat}
    {start finish : State}
    {labels : List Label}
    (initial : Initial start)
    (run : Run (Takes (step fuel cmp)) Allowed start labels finish) :
    ∃ tree, Represents cmp finish tree := by
  let holds : State → Prop := fun state =>
    ∃ tree, Represents cmp state tree
  change holds finish
  refine run.invariant ?_ ?_
  · refine ⟨.nil, ⟨initial.1, trivial⟩, rfl, ⟨0, .nil⟩, List.nodup_nil,
      List.Pairwise.nil, ?_⟩
    rw [initial.2]
    exact List.Perm.refl _
  · rintro source label target ⟨tree, represents⟩ allowed taken
    have kept := represents.step trans allowed fuel
    rw [show step fuel cmp source label = .ok target from taken] at kept
    exact kept

/--
The tree after any sequence of insertions and erasures, and what the functions
return on it.  Of the order only its transitivity is used.
-/
theorem tree_correct
    (trans :
      ∀ left middle right, cmp left middle = true →
        cmp middle right = true → cmp left right = true)
    {fuel : Nat}
    {start finish : State}
    {labels : List Label}
    (initial : Initial start)
    (run : Run (Takes (step fuel cmp)) Allowed start labels finish) :
    (∃ tree height,
      Whole finish.memory tree ∧ tree.color = .black ∧
        Balanced tree height ∧ tree.names.Nodup ∧
        tree.names.Perm finish.members ∧
        tree.names.Pairwise fun first second =>
          cmp first second = true) ∧
    (∀ label enough, Allowed finish label →
      finish.members.length < enough →
        ∃ target, step enough cmp finish label = .ok target) ∧
    (∀ node enough result after, Allowed finish (.insert node) →
      rbInsert enough cmp node finish.memory = .ok (result, after) →
        (result = -1 ∨ result = 0) ∧
        (result = -1 ↔ ∃ other ∈ finish.members, Equal cmp node other) ∧
        (result = -1 →
          after.root = finish.memory.root ∧
            Agrees finish.members finish.memory after)) ∧
    (∀ node enough, finish.members.length < enough →
      ∃ found,
        rbLookup enough cmp node finish.memory = .ok found ∧
          (found ≠ 0 ↔ ∃ other ∈ finish.members, Equal cmp node other) ∧
          (found ≠ 0 → found ∈ finish.members ∧ Equal cmp node found)) ∧
    ∀ enough, finish.members.length < enough →
      ∃ found,
        rbFirst enough finish.memory = .ok found ∧
          (found = 0 ↔ finish.members = []) ∧
          (found ≠ 0 →
            found ∈ finish.members ∧
              ∀ other ∈ finish.members,
                other = found ∨ cmp found other = true) := by
  rcases run_represents trans initial run with ⟨tree, represents⟩
  have nonnull : ∀ other ∈ finish.members, other ≠ 0 := by
    intro other member
    have inside := represents.members.mem_iff.mpr member
    exact (represents.whole.2.isNode inside).1
  refine ⟨?_, ?_, ?_, ?_, ?_⟩
  · rcases represents.balanced with ⟨height, balanced⟩
    exact ⟨tree, height, represents.whole, represents.isBlack, balanced,
      represents.nodup, represents.members, represents.sorted⟩
  · intro label enough allowed long
    have stepped := represents.step trans allowed enough
    revert stepped
    cases step enough cmp finish label with
    | ok target => exact fun _ => ⟨target, rfl⟩
    | error fault =>
        rintro ⟨-, short⟩
        omega
  · intro node enough result after allowed inserted
    have spec := represents.insert trans allowed enough
    rw [inserted] at spec
    rcases spec with ⟨rfl, equal, same⟩ | ⟨rfl, none, -⟩
    · exact ⟨Or.inl rfl, ⟨fun _ => equal, fun _ => rfl⟩, fun _ => same⟩
    · refine ⟨Or.inr rfl, ⟨fun failed => ?_, ?_⟩, fun failed => ?_⟩
      · cases failed
      · rintro ⟨other, member, equal⟩
        exact absurd equal (none other member)
      · cases failed
  · intro node enough long
    have spec := lookupFrom_spec trans represents.whole.2
      represents.sorted node enough
    rw [← represents.whole.1] at spec
    change
      match rbLookup enough cmp node finish.memory with
      | .ok found => _
      | .error fault => _ at spec
    revert spec
    cases rbLookup enough cmp node finish.memory with
    | error fault =>
        rintro ⟨-, short⟩
        have := represents.depth_le
        omega
    | ok found =>
        rintro (⟨member, equal⟩ | ⟨rfl, none⟩)
        · have here := represents.members.mem_iff.mp member
          exact ⟨found, rfl,
            ⟨fun _ => ⟨found, here, equal⟩, fun _ => nonnull found here⟩,
            fun _ => ⟨here, equal⟩⟩
        · refine ⟨0, rfl, ⟨fun nonnull => absurd rfl nonnull, ?_⟩,
            fun nonnull => absurd rfl nonnull⟩
          rintro ⟨other, member, equal⟩
          exact absurd equal
            (none other (represents.members.mem_iff.mpr member))
  · intro enough long
    refine ⟨_, rbFirst_spec represents.whole
      (Nat.lt_of_le_of_lt represents.depth_le long), ?_⟩
    have sorted := represents.sorted
    have members := represents.members
    revert sorted members
    cases tree.names with
    | nil =>
        intro _ members
        exact ⟨⟨fun _ => members.nil_eq.symm, fun _ => rfl⟩,
          fun nonnull => absurd rfl nonnull⟩
    | cons first others =>
        intro sorted members
        have here := members.mem_iff.mp List.mem_cons_self
        refine ⟨⟨fun null => absurd null (nonnull first here), ?_⟩, ?_⟩
        · rintro none
          rw [none] at here
          exact absurd here List.not_mem_nil
        · refine fun _ => ⟨here, fun other member => ?_⟩
          rcases List.mem_cons.mp (members.mem_iff.mpr member) with
            rfl | behind
          · exact Or.inl rfl
          · exact Or.inr ((List.pairwise_cons.mp sorted).1 other behind)

/-- Nodes which are compared by their address in units of two nodes. -/
def byPair (node other : Pointer) : Bool :=
  decide (node / 16 < other / 16)

def noNodes : State :=
  { memory := { parentColor := fun _ => 0, child := fun _ _ => 0, root := 0 }
    members := [] }

/-- Six nodes and an equal one, and two of them are erased. -/
def insertedAndErased : List Label :=
  [.insert 16, .insert 32, .insert 48, .insert 64, .insert 80, .insert 96,
    .insert 56, .erase 32, .erase 16]

theorem tree_correct_erased :
    ∃ state : State,
      Run (Takes (step 8 byPair)) Allowed noNodes insertedAndErased state ∧
        state.members = [96, 80, 64, 48] ∧
        (∃ tree height,
          Whole state.memory tree ∧ tree.color = .black ∧
            Balanced tree height ∧ tree.names.Nodup ∧
            tree.names.Perm state.members ∧
            tree.names.Pairwise fun first second =>
              byPair first second = true) ∧
        ∃ found,
          rbLookup 8 byPair 56 state.memory = .ok found ∧
            (found ≠ 0 ↔
              ∃ other ∈ state.members, Equal byPair 56 other) ∧
            (found ≠ 0 →
              found ∈ state.members ∧ Equal byPair 56 found) := by
  have computed :
      ((executeChecked (step 8 byPair)
        (fun state label => decide (Allowed state label))
        noNodes insertedAndErased).map
          fun state => decide (state.members = [96, 80, 64, 48])) =
        some true := by
    decide +kernel
  rcases Option.map_eq_some_iff.mp computed with ⟨state, executed, facts⟩
  have run :
      Run (Takes (step 8 byPair)) Allowed noNodes insertedAndErased state :=
    Run.of_executeChecked (fun _ _ => of_decide_eq_true) executed
  have members := of_decide_eq_true facts
  have trans :
      ∀ left middle right, byPair left middle = true →
        byPair middle right = true → byPair left right = true := by
    intro left middle right first second
    exact decide_eq_true
      (BitVec.lt_trans (of_decide_eq_true first)
        (of_decide_eq_true second))
  have correct := tree_correct trans (show Initial noNodes from ⟨rfl, rfl⟩)
    run
  refine ⟨state, run, members, correct.1, ?_⟩
  exact correct.2.2.2.1 56 8 (by rw [members]; decide)

end Runs

end FudanOS.Common.RbTree
