import FudanOS.Library.CircularList

/-!
# Lists and queues of nodes

The circular lists of `common/list.c` and `common/list.h`, and the queue which
keeps pointers to both ends of one.  `none` is `NULL`; the lock of the queue is
left out, since its functions are called with the lock held.
-/

namespace FudanOS.Common.ListNodes

open FudanOS.Library.CircularList

variable {Node : Type*} [DecidableEq Node]

/-! ## Lists -/

def initListNode (links : Links Node) (node : Node) : Links Node where
  prev := Function.update links.prev node node
  next := Function.update links.next node node

/-- `_merge_list(node1, node2)` -/
def mergeList (links : Links Node) (node1 node2 : Option Node) :
    Links Node × Option Node :=
  match node1, node2 with
  | none, _ => (links, node2)
  | _, none => (links, node1)
  | some first, some second =>
      let node3 := links.next first
      let node4 := links.prev second
      let next := Function.update links.next first second
      let prev := Function.update links.prev second first
      let next := Function.update next node4 node3
      let prev := Function.update prev node3 node4
      (⟨prev, next⟩, node1)

/-- `_detach_from_list(node)` -/
def detachFromList (links : Links Node) (node : Node) :
    Links Node × Option Node :=
  let prev := links.prev node
  let links :=
    { links with
      next :=
        Function.update links.next (links.prev node) (links.next node) }
  let links :=
    { links with
      prev :=
        Function.update links.prev (links.next node) (links.prev node) }
  let links := initListNode links node
  (links, if prev = node then none else some prev)

/-- The nodes which `_for_in_list` visits, if it ends after so many. -/
def forInList (links : Links Node) (list : Node) (steps : Nat) :
    Option (List Node) :=
  links.walk list steps (links.next list)

/-! ## Queues -/

structure Queue (Node : Type*) where
  begin_ : Option Node
  end_ : Option Node
  sz : Int

structure State (Node : Type*) where
  links : Links Node
  queue : Queue Node

/-- Why a function of the queue does not return. -/
inductive Stop where
  | panic
  /-- `begin` is `NULL` and is followed. -/
  | null

/-- `queue_init(x)` -/
def queueInit (links : Links Node) : State Node :=
  ⟨links, ⟨none, none, 0⟩⟩

/-- `queue_push(x, item)` -/
def queuePush (state : State Node) (item : Node) : State Node :=
  let links := initListNode state.links item
  if state.queue.sz = 0 then
    ⟨links, ⟨some item, some item, state.queue.sz + 1⟩⟩
  else
    ⟨(mergeList links state.queue.end_ (some item)).1,
      ⟨state.queue.begin_, some item, state.queue.sz + 1⟩⟩

/-- `queue_pop(x)` -/
def queuePop (state : State Node) : Except Stop (State Node) :=
  if state.queue.sz = 0 then
    .error .panic
  else if state.queue.sz = 1 then
    .ok ⟨state.links, ⟨none, none, state.queue.sz - 1⟩⟩
  else
    match state.queue.begin_ with
    | none => .error .null
    | some t =>
        .ok
          ⟨(detachFromList state.links t).1,
            ⟨some (state.links.next t), state.queue.end_,
              state.queue.sz - 1⟩⟩

/-- `queue_front(x)` -/
def queueFront (state : State Node) : Except Stop Node :=
  match state.queue.begin_ with
  | none => .error .panic
  | some item => .ok item

inductive Label (Node : Type*) where
  | push (item : Node)
  | pop

def step (state : State Node) : Label Node → Except Stop (State Node)
  | .push item => .ok (queuePush state item)
  | .pop => queuePop state

/-! ## What the callers may expect -/

/-- The items which are pushed and not yet popped, the oldest first. -/
def pending : List Node → List (Label Node) → List Node
  | items, [] => items
  | items, .push item :: labels => pending (items ++ [item]) labels
  | items, .pop :: labels => pending items.tail labels

/-- No item is pushed while it is in the queue, and none popped from nothing. -/
def WellUsed : List Node → List (Label Node) → Prop
  | _, [] => True
  | items, .push item :: labels =>
      item ∉ items ∧ WellUsed (items ++ [item]) labels
  | items, .pop :: labels => items ≠ [] ∧ WellUsed items.tail labels

/-- A node of one list is put in front of a node of another one. -/
def Merges (links : Links Node) (lists : List (List Node)) : Prop :=
  ∀ list ∈ lists, ∀ other ∈ lists, list ≠ other →
    ∀ first ∈ list, ∀ second ∈ other,
      ∃ nodes others rest,
        (first :: nodes) ~r list ∧ (second :: others) ~r other ∧
          lists.Perm (list :: other :: rest) ∧
          ∃ target,
            mergeList links (some first) (some second) =
                (target, some first) ∧
              Circles target ((first :: second :: (others ++ nodes)) :: rest)

/-- A node is taken out of its list, and the node before it is returned. -/
def Detaches (links : Links Node) (lists : List (List Node)) : Prop :=
  ∀ list ∈ lists, ∀ node ∈ list,
    ∃ nodes rest,
      (node :: nodes) ~r list ∧ lists.Perm (list :: rest) ∧
        ∃ target,
          detachFromList links node = (target, nodes.getLast?) ∧
            Circles target ([node] :: ([nodes].filter (· ≠ []) ++ rest))

/-- A walk from a node visits the others of its list and then the node. -/
def Visits (links : Links Node) (lists : List (List Node)) : Prop :=
  ∀ list ∈ lists, ∀ node ∈ list,
    ∃ nodes,
      (node :: nodes) ~r list ∧
        forInList links node list.length = some (nodes ++ [node]) ∧
        (nodes ++ [node]).Perm list ∧ (nodes ++ [node]).Nodup

/-- The queue hands out its items in the order in which they were pushed. -/
structure Queues (labels : List (Label Node)) (state : State Node) :
    Prop where
  size : state.queue.sz = (pending [] labels).length
  front :
    queueFront state =
      match pending [] labels with
      | [] => .error .panic
      | oldest :: _ => .ok oldest

/-! ## The lists -/

section Lists

variable
    {links : Links Node}
    {lists : List (List Node)}

theorem mergeList_eq
    (links : Links Node)
    (first second : Node) :
    mergeList links (some first) (some second) =
      (links.merge first second, some first) :=
  rfl

/-- The first write does not change the link which is read for the second. -/
theorem detachFromList_eq
    (links : Links Node)
    (node : Node) :
    (detachFromList links node).1 = links.detach node := by
  have still :
      Function.update links.next (links.prev node) (links.next node) node =
        links.next node := by
    by_cases alone : node = links.prev node
    · rw [← alone, Function.update_self]
    · rw [Function.update_of_ne alone]
  unfold detachFromList
  dsimp only
  rw [still]
  rfl

theorem initListNode_eq
    (links : Links Node)
    (node : Node) :
    initListNode links node = links.single node :=
  rfl

omit [DecidableEq Node] in
/-- A list may be moved to the front. -/
theorem perm_front
    {list : List Node}
    (member : list ∈ lists) :
    ∃ rest, lists.Perm (list :: rest) := by
  rcases List.append_of_mem member with ⟨before, after, rfl⟩
  exact ⟨before ++ after, List.perm_middle⟩

theorem merges
    (circles : Circles links lists) :
    Merges links lists := by
  intro list inLists other otherIn different first inList second inOther
  rcases perm_front inLists with ⟨later, perm⟩
  have otherLater : other ∈ later := by
    rcases List.mem_cons.mp (perm.mem_iff.mp otherIn) with same | member
    · exact absurd same.symm different
    · exact member
  rcases perm_front otherLater with ⟨rest, permLater⟩
  have front : lists.Perm (list :: other :: rest) :=
    perm.trans (List.Perm.cons list permLater)
  rcases (circles.circle list inLists).from inList with
    ⟨nodes, rotated, ring⟩
  rcases (circles.circle other otherIn).from inOther with
    ⟨others, otherRotated, joined⟩
  refine ⟨nodes, others, rest, rotated, otherRotated, front, _,
    mergeList_eq links first second, ?_⟩
  apply Circles.merge
  have one := Circles.turn (circles.perm front) rotated ring
  have swapped := Circles.turn (one.perm (List.Perm.swap _ _ _))
    otherRotated joined
  exact swapped.perm (List.Perm.swap _ _ _)

theorem detaches
    (circles : Circles links lists) :
    Detaches links lists := by
  intro list inLists node inList
  rcases perm_front inLists with ⟨rest, perm⟩
  rcases (circles.circle list inLists).from inList with
    ⟨nodes, rotated, ring⟩
  refine ⟨nodes, rest, rotated, perm, links.detach node, ?_, ?_⟩
  · rw [Prod.ext_iff]
    refine ⟨detachFromList_eq links node, ?_⟩
    change (if links.prev node = node then none
      else some (links.prev node)) = _
    rw [ring.ends.2]
    rcases List.eq_nil_or_concat nodes with rfl | ⟨start, last, rfl⟩
    · exact if_pos rfl
    · have different : last ≠ node := by
        rintro rfl
        apply (List.nodup_cons.mp ring.nodup).1
        simp
      simp [different]
  · exact (Circles.turn (circles.perm perm) rotated ring).detach

theorem visits
    (circles : Circles links lists) :
    Visits links lists := by
  intro list inLists node inList
  rcases (circles.circle list inLists).from inList with
    ⟨nodes, rotated, ring⟩
  have turned : (nodes ++ [node]).Perm (node :: nodes) :=
    List.perm_append_comm
  refine ⟨nodes, rotated, ?_, turned.trans rotated.perm,
    turned.nodup_iff.mpr ring.nodup⟩
  rw [← rotated.perm.length_eq]
  exact ring.walk

end Lists

/-! ## The queue -/

section Queues

variable
    {state : State Node}
    {items : List Node}

/-- The queue has the items, which are a circle in their order. -/
structure Holds (state : State Node) (items : List Node) : Prop where
  size : state.queue.sz = items.length
  first : state.queue.begin_ = items.head?
  last : state.queue.end_ = items.getLast?
  circle : items ≠ [] → Circle state.links items

omit [DecidableEq Node] in
theorem holds_init (links : Links Node) : Holds (queueInit links) [] :=
  ⟨rfl, rfl, rfl, fun impossible => absurd rfl impossible⟩

theorem Holds.push
    (holds : Holds state items)
    {item : Node}
    (apart : item ∉ items) :
    Holds (queuePush state item) (items ++ [item]) := by
  have size :
      state.queue.sz + 1 = ((items ++ [item]).length : Int) := by
    rw [holds.size, List.length_append]
    rfl
  unfold queuePush
  dsimp only
  cases items with
  | nil =>
      rw [if_pos (show state.queue.sz = 0 from holds.size)]
      exact ⟨size, rfl, rfl, fun _ => ring_single state.links item⟩
  | cons head rest =>
      have some_ : state.queue.sz ≠ 0 := by
        rw [holds.size, List.length_cons]
        omega
      rw [if_neg some_]
      refine ⟨size, holds.first, ?_, fun _ => ?_⟩
      · rw [List.getLast?_concat]
      · have ring : Ring state.links head rest :=
          holds.circle (List.cons_ne_nil head rest)
        cases isLast : (head :: rest).getLast? with
        | none => exact absurd (List.getLast?_eq_none_iff.mp isLast) nofun
        | some last =>
            have end_ : state.queue.end_ = some last :=
              holds.last.trans isLast
            rw [end_]
            exact ring.push isLast apart

theorem Holds.pop
    {oldest : Node}
    (holds : Holds state (oldest :: items)) :
    ∃ target, queuePop state = .ok target ∧ Holds target items := by
  have ring : Ring state.links oldest items :=
    holds.circle (List.cons_ne_nil oldest items)
  have size := holds.size
  have some_ : state.queue.sz ≠ 0 := by
    rw [size, List.length_cons]
    omega
  unfold queuePop
  rw [if_neg some_]
  cases items with
  | nil =>
      have one : state.queue.sz = 1 := size
      rw [if_pos one]
      refine ⟨_, rfl, ?_, rfl, rfl, fun impossible => absurd rfl impossible⟩
      rw [one]
      rfl
  | cons second items =>
      have more : state.queue.sz ≠ 1 := by
        rw [size, List.length_cons, List.length_cons]
        omega
      have begin_ : state.queue.begin_ = some oldest := holds.first
      rw [if_neg more, begin_]
      refine ⟨_, rfl, ?_, ?_, ?_, fun _ => ?_⟩
      · change state.queue.sz - 1 = _
        rw [size, List.length_cons]
        omega
      · exact congrArg some ring.linked.1
      · exact holds.last
      · change Ring (detachFromList state.links oldest).1 second items
        rw [detachFromList_eq]
        exact ring.detach

/-- A run which uses the queue well ends, and the queue has what it should. -/
theorem holds_run
    (labels : List (Label Node))
    (holds : Holds state items)
    (used : WellUsed items labels) :
    ∃ finish,
      labels.foldlM step state = .ok finish ∧
        Holds finish (pending items labels) := by
  induction labels generalizing state items with
  | nil => exact ⟨state, rfl, holds⟩
  | cons label labels ih =>
      cases label with
      | push item =>
          rcases used with ⟨apart, used⟩
          exact ih (holds.push apart) used
      | pop =>
          rcases used with ⟨some_, used⟩
          cases items with
          | nil => exact absurd rfl some_
          | cons oldest items =>
              rcases holds.pop with ⟨target, popped, later⟩
              rcases ih later used with ⟨finish, run, final⟩
              refine ⟨finish, ?_, final⟩
              rw [List.foldlM_cons]
              change (queuePop state >>= _) = _
              rw [popped]
              exact run

omit [DecidableEq Node] in
theorem Holds.queues
    {labels : List (Label Node)}
    (holds : Holds state (pending [] labels)) :
    Queues labels state := by
  constructor
  · exact holds.size
  · unfold queueFront
    rw [holds.first]
    cases pending [] labels with
    | nil => rfl
    | cons oldest items => rfl

end Queues

/--
The operations on lists keep circles without common nodes, and a queue hands
out its items in order.
-/
theorem lists_and_queues :
    (∀ (links : Links Node) (lists : List (List Node)),
      Circles links lists →
        Merges links lists ∧ Detaches links lists ∧ Visits links lists) ∧
      ∀ (links : Links Node) (labels : List (Label Node)),
        WellUsed [] labels →
          ∃ finish,
            labels.foldlM step (queueInit links) = .ok finish ∧
              Queues labels finish := by
  constructor
  · intro links lists circles
    exact ⟨merges circles, detaches circles, visits circles⟩
  · intro links labels used
    rcases holds_run labels (holds_init links) used with
      ⟨finish, run, holds⟩
    exact ⟨finish, run, holds.queues⟩

end FudanOS.Common.ListNodes
