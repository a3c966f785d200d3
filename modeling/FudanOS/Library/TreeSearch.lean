import Mathlib.Logic.Relation
import Mathlib.Data.List.Basic

/-!
# Search in a tree of lists

A depth-first search for the first node which satisfies a test, from a node
down the lists of its children.  The recursion is bounded by a depth; a search
which reaches the bound has no result.
-/

namespace FudanOS.Library.TreeSearch

variable {Node : Type*}

/-- The first result of visits, if each of them has one. -/
def firstFound (visit : Node → Option (Option Node)) :
    List Node → Option (Option Node)
  | [] => some none
  | node :: rest =>
      match visit node with
      | none => none
      | some (some found) => some (some found)
      | some none => firstFound visit rest

/-- The search, at most so many levels deep. -/
def search (accepts : Node → Bool) (children : Node → List Node) :
    Nat → Node → Option (Option Node)
  | 0, _ => none
  | depth + 1, node =>
      if accepts node then
        some (some node)
      else
        firstFound (search accepts children depth) (children node)

/-- A node is in the tree below another one, or that node itself. -/
def Below (children : Node → List Node) : Node → Node → Prop :=
  Relation.ReflTransGen fun parent child => child ∈ children parent

/-- A search has an accepted node below the first one, or there is none. -/
structure Searched
    (accepts : Node → Bool)
    (children : Node → List Node)
    (nodes : List Node)
    (result : Option Node) : Prop where
  found :
    ∀ node, result = some node →
      accepts node = true ∧
        ∃ first ∈ nodes, Below children first node
  absent :
    result = none →
      ∀ first ∈ nodes, ∀ node,
        Below children first node → accepts node = false

variable
    {accepts : Node → Bool}
    {children : Node → List Node}

theorem exists_firstFound
    {visit : Node → Option (Option Node)}
    {nodes : List Node}
    (visits :
      ∀ node ∈ nodes,
        ∃ result,
          visit node = some result ∧
            Searched accepts children [node] result) :
    ∃ result,
      firstFound visit nodes = some result ∧
        Searched accepts children nodes result := by
  induction nodes with
  | nil =>
      refine ⟨none, rfl, ?_, ?_⟩
      · intro node isNone
        cases isNone
      · intro _ first member
        cases member
  | cons node rest ih =>
      rcases visits node List.mem_cons_self with ⟨here, visited, searched⟩
      rw [firstFound, visited]
      cases here with
      | some found =>
          refine ⟨some found, rfl, ?_, ?_⟩
          · intro other same
            rcases searched.found other same with ⟨accepted, first, member, below⟩
            refine ⟨accepted, node, List.mem_cons_self, ?_⟩
            rwa [List.mem_singleton.mp member] at below
          · intro isNone
            cases isNone
      | none =>
          rcases ih fun other member =>
              visits other (List.mem_cons_of_mem _ member) with
            ⟨result, found, later⟩
          refine ⟨result, found, ?_, ?_⟩
          · intro other same
            rcases later.found other same with ⟨accepted, first, member, below⟩
            exact ⟨accepted, first, List.mem_cons_of_mem _ member, below⟩
          · intro isNone first member
            rcases List.mem_cons.mp member with rfl | there
            · exact searched.absent rfl first (List.mem_singleton_self first)
            · exact later.absent isNone first there

/--
When a rank rises from each node to its children and is bounded, the search
has a result.
-/
theorem exists_search
    {rank : Node → Nat}
    {bound : Nat}
    (rises : ∀ node, ∀ child ∈ children node, rank node < rank child)
    (bounded : ∀ node, ∀ child ∈ children node, rank child ≤ bound)
    {depth : Nat}
    {node : Node}
    (enough : bound < rank node + depth)
    (inside : rank node ≤ bound) :
    ∃ result,
      search accepts children depth node = some result ∧
        Searched accepts children [node] result := by
  induction depth generalizing node with
  | zero => exact absurd enough (Nat.not_lt_of_le inside)
  | succ depth ih =>
      rw [search]
      by_cases accepted : accepts node = true
      · rw [if_pos accepted]
        refine ⟨some node, rfl, ?_, ?_⟩
        · rintro other same
          cases same
          exact ⟨accepted, node, List.mem_singleton_self node,
            Relation.ReflTransGen.refl⟩
        · intro isNone
          cases isNone
      · rw [if_neg accepted]
        have visits :
            ∀ child ∈ children node,
              ∃ result,
                search accepts children depth child = some result ∧
                  Searched accepts children [child] result := by
          intro child member
          have rise := rises node child member
          exact ih (by omega) (bounded node child member)
        rcases exists_firstFound visits with ⟨result, found, searched⟩
        refine ⟨result, found, ?_, ?_⟩
        · intro other same
          rcases searched.found other same with
            ⟨otherAccepted, first, member, below⟩
          exact ⟨otherAccepted, node, List.mem_singleton_self node,
            Relation.ReflTransGen.head member below⟩
        · intro isNone first member other below
          rw [List.mem_singleton.mp member] at below
          rcases Relation.ReflTransGen.cases_head below with
            rfl | ⟨child, isChild, rest⟩
          · exact (Bool.not_eq_true _).mp accepted
          · exact searched.absent isNone child isChild other rest

/-- When at most one node is accepted, the search finds that node. -/
theorem exists_search_iff
    {rank : Node → Nat}
    {bound : Nat}
    (rises : ∀ node, ∀ child ∈ children node, rank node < rank child)
    (bounded : ∀ node, ∀ child ∈ children node, rank child ≤ bound)
    {node : Node}
    (inside : rank node ≤ bound)
    (unique :
      ∀ left right, Below children node left → Below children node right →
        accepts left = true → accepts right = true → left = right)
    {depth : Nat}
    (enough : bound < depth) :
    ∃ result,
      search accepts children depth node = some result ∧
        ∀ other,
          result = some other ↔
            Below children node other ∧ accepts other = true := by
  have deep : bound < rank node + depth :=
    Nat.lt_of_lt_of_le enough (Nat.le_add_left _ _)
  rcases exists_search rises bounded deep inside with
    ⟨result, found, searched⟩
  have isBelow :
      ∀ other, result = some other →
        Below children node other ∧ accepts other = true := by
    intro other same
    rcases searched.found other same with ⟨accepted, first, member, below⟩
    rw [List.mem_singleton.mp member] at below
    exact ⟨below, accepted⟩
  refine ⟨result, found, fun other => ⟨isBelow other, ?_⟩⟩
  rintro ⟨below, accepted⟩
  cases isResult : result with
  | none =>
      have rejected :=
        searched.absent isResult node (List.mem_singleton_self node) other
          below
      rw [accepted] at rejected
      cases rejected
  | some found =>
      rcases isBelow found isResult with ⟨foundBelow, foundAccepted⟩
      rw [unique found other foundBelow below foundAccepted accepted]

end FudanOS.Library.TreeSearch
