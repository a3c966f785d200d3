import Mathlib.Data.List.Nodup
import Mathlib.Data.List.Rotate
import Mathlib.Logic.Function.Basic
import Mathlib.Data.Set.Basic
import Mathlib.Tactic.Common

/-!
# Circular lists

Nodes with two links each.  `Ring` says that the links from a head lead
through some nodes back to it, and backwards too.  Rings are merged by four
writes, and a walk along a ring comes back to its head.
-/

namespace FudanOS.Library.CircularList

variable {Node : Type*}

/-- Where the links of each node lead. -/
@[ext]
structure Links (Node : Type*) where
  prev : Node → Node
  next : Node → Node

/-- Neighbours in the list are linked both ways. -/
def Linked (links : Links Node) : List Node → Prop
  | first :: second :: rest =>
      links.next first = second ∧ links.prev second = first ∧
        Linked links (second :: rest)
  | _ => True

/-- The links lead from the head through the nodes and back. -/
structure Ring
    (links : Links Node)
    (head : Node)
    (nodes : List Node) : Prop where
  linked : Linked links (head :: (nodes ++ [head]))
  nodup : (head :: nodes).Nodup

/-- The nodes are linked in a circle, in their order. -/
def Circle (links : Links Node) : List Node → Prop
  | [] => False
  | head :: nodes => Ring links head nodes

/-- The nodes are in circles of which no two have a node in common. -/
structure Circles (links : Links Node) (lists : List (List Node)) : Prop where
  circle : ∀ nodes ∈ lists, Circle links nodes
  nodup : lists.flatten.Nodup

/-- The nodes from `node` on, up to the head; `none` if it is not reached. -/
def Links.walk [DecidableEq Node] (links : Links Node) (head : Node) :
    Nat → Node → Option (List Node)
  | 0, _ => none
  | fuel + 1, node =>
      if node = head then
        some [node]
      else
        (links.walk head fuel (links.next node)).map (node :: ·)

section Lists

variable
    {links other : Links Node}
    {first second head node : Node}
    {left right nodes : List Node}

@[simp]
theorem linked_nil (links : Links Node) : Linked links [] :=
  trivial

@[simp]
theorem linked_singleton
    (links : Links Node)
    (node : Node) :
    Linked links [node] :=
  trivial

theorem linked_cons_cons :
    Linked links (first :: second :: right) ↔
      links.next first = second ∧ links.prev second = first ∧
        Linked links (second :: right) :=
  Iff.rfl

/-- A list is linked when its parts and the seam between them are. -/
theorem linked_append :
    Linked links (left ++ first :: second :: right) ↔
      Linked links (left ++ [first]) ∧
        links.next first = second ∧ links.prev second = first ∧
        Linked links (second :: right) := by
  induction left with
  | nil => simp [linked_cons_cons]
  | cons node left ih =>
      cases left with
      | nil =>
          simp only [List.nil_append, List.cons_append] at ih ⊢
          simp only [linked_cons_cons, linked_singleton, and_true]
          tauto
      | cons next left =>
          simp only [List.cons_append] at ih ⊢
          rw [linked_cons_cons, linked_cons_cons, ih]
          tauto

/-- Only the links between neighbours matter. -/
theorem Linked.congr
    (linked : Linked links nodes)
    (next : ∀ node ∈ nodes.dropLast, other.next node = links.next node)
    (prev : ∀ node ∈ nodes.tail, other.prev node = links.prev node) :
    Linked other nodes := by
  induction nodes with
  | nil => trivial
  | cons first rest ih =>
      cases rest with
      | nil => trivial
      | cons second rest =>
          rcases linked with ⟨forward, backward, linked⟩
          refine ⟨?_, ?_, ih linked ?_ ?_⟩
          · rw [next first (by simp)]
            exact forward
          · rw [prev second (by simp)]
            exact backward
          · intro node member
            apply next
            rw [List.dropLast_cons_of_ne_nil (List.cons_ne_nil _ _)]
            exact List.mem_cons_of_mem _ member
          · intro node member
            apply prev
            exact List.mem_cons_of_mem _ member

/-- A ring stays when the links of its nodes do. -/
theorem Ring.congr
    (ring : Ring links head nodes)
    (next : ∀ node ∈ head :: nodes, other.next node = links.next node)
    (prev : ∀ node ∈ head :: nodes, other.prev node = links.prev node) :
    Ring other head nodes := by
  refine ⟨ring.linked.congr ?_ ?_, ring.nodup⟩
  · intro node member
    apply next
    rw [List.dropLast_cons_of_ne_nil (by simp), List.dropLast_concat]
      at member
    exact member
  · intro node member
    apply prev
    rw [List.tail_cons, List.mem_append, List.mem_singleton] at member
    rcases member with inside | rfl
    · exact List.mem_cons_of_mem _ inside
    · exact List.mem_cons_self

/-- The front of a linked list is linked. -/
theorem Linked.front
    (linked : Linked links (left ++ right)) :
    Linked links left := by
  induction left with
  | nil => trivial
  | cons first left ih =>
      cases left with
      | nil => trivial
      | cons second left =>
          rcases linked with ⟨forward, backward, linked⟩
          exact ⟨forward, backward, ih linked⟩

theorem Linked.tail
    (linked : Linked links (first :: right)) :
    Linked links right := by
  cases right with
  | nil => trivial
  | cons second right => exact linked.2.2

/-- A link leads to another node of the list. -/
theorem Linked.next_mem
    (linked : Linked links nodes)
    (member : node ∈ nodes.dropLast) :
    links.next node ∈ nodes.tail := by
  induction nodes with
  | nil => cases member
  | cons first rest ih =>
      cases rest with
      | nil => cases member
      | cons second rest =>
          rcases linked with ⟨forward, -, linked⟩
          rw [List.dropLast_cons_of_ne_nil (List.cons_ne_nil _ _)] at member
          rcases List.mem_cons.mp member with rfl | later
          · rw [forward]
            exact List.mem_cons_self
          · exact List.mem_cons_of_mem _ (ih linked later)

/-- The links of a ring stay in it. -/
theorem Ring.next_mem
    (ring : Ring links head nodes)
    (member : node ∈ head :: nodes) :
    links.next node ∈ head :: nodes := by
  have inner : node ∈ (head :: (nodes ++ [head])).dropLast := by
    rw [List.dropLast_cons_of_ne_nil (by simp), List.dropLast_concat]
    exact member
  have next := ring.linked.next_mem inner
  rw [List.tail_cons] at next
  simpa [or_comm] using next

/-- A link back leads to another node of the list. -/
theorem Linked.prev_mem
    (linked : Linked links nodes)
    (member : node ∈ nodes.tail) :
    links.prev node ∈ nodes.dropLast := by
  induction nodes with
  | nil => cases member
  | cons first rest ih =>
      cases rest with
      | nil => cases member
      | cons second rest =>
          rcases linked with ⟨-, backward, linked⟩
          rw [List.dropLast_cons_of_ne_nil (List.cons_ne_nil _ _)]
          rcases List.mem_cons.mp member with rfl | later
          · rw [backward]
            exact List.mem_cons_self
          · exact List.mem_cons_of_mem _ (ih linked later)

/-- The links back stay in a ring as well. -/
theorem Ring.prev_mem
    (ring : Ring links head nodes)
    (member : node ∈ head :: nodes) :
    links.prev node ∈ head :: nodes := by
  have inner : node ∈ (head :: (nodes ++ [head])).tail := by
    rw [List.tail_cons]
    simpa [or_comm] using member
  have prev := ring.linked.prev_mem inner
  rw [List.dropLast_cons_of_ne_nil (by simp), List.dropLast_concat] at prev
  exact prev

/-- The neighbours of the head of a ring. -/
theorem Ring.ends
    (ring : Ring links head nodes) :
    links.next head = (nodes ++ [head]).head (by simp) ∧
      links.prev head =
        (head :: nodes).getLast (List.cons_ne_nil _ _) := by
  constructor
  · have linked := ring.linked
    cases nodes with
    | nil => exact linked.1
    | cons node nodes => exact linked.1
  · have linked := ring.linked
    rcases List.eq_nil_or_concat nodes with rfl | ⟨start, last, rfl⟩
    · exact linked.2.1
    · have whole :
          head :: (start ++ [last] ++ [head]) =
            (head :: start) ++ last :: head :: [] := by
        simp
      rw [List.concat_eq_append] at linked
      rw [whole, linked_append] at linked
      simpa using linked.2.2.1

/-- A list is linked when two parts which share an element are. -/
theorem linked_append_cons :
    Linked links (left ++ first :: right) ↔
      Linked links (left ++ [first]) ∧ Linked links (first :: right) := by
  cases right with
  | nil => exact (and_iff_left (linked_singleton links first)).symm
  | cons second right => rw [linked_append, linked_cons_cons]

/-- Each node of a ring may be taken for its head. -/
theorem Ring.rotate
    (ring : Ring links head (left ++ first :: right)) :
    Ring links first (right ++ head :: left) := by
  rcases ring with ⟨linked, nodup⟩
  have whole :
      head :: (left ++ first :: right ++ [head]) =
        (head :: left) ++ first :: (right ++ [head]) := by
    simp
  rw [whole, linked_append_cons] at linked
  constructor
  · have turned :
        first :: (right ++ head :: left ++ [first]) =
          (first :: right) ++ head :: (left ++ [first]) := by
      simp
    rw [turned, linked_append_cons]
    exact ⟨linked.2, linked.1⟩
  · have turned :
        (first :: (right ++ head :: left)).Perm
          (head :: (left ++ first :: right)) := by
      have parts :
          ((first :: right) ++ (head :: left)).Perm
            ((head :: left) ++ (first :: right)) :=
        List.perm_append_comm
      exact parts
    exact turned.nodup_iff.mpr nodup

/-- A circle may be written down from each of its nodes. -/
theorem Circle.from
    (circle : Circle links nodes)
    (member : node ∈ nodes) :
    ∃ rest, (node :: rest) ~r nodes ∧ Ring links node rest := by
  rcases List.append_of_mem member with ⟨left, right, rfl⟩
  refine ⟨right ++ left, ?_, ?_⟩
  · have turned : (node :: right) ++ left ~r left ++ (node :: right) :=
      List.isRotated_append
    exact turned
  · cases left with
    | nil =>
        rw [List.append_nil]
        exact circle
    | cons head left =>
        have ring : Ring links head (left ++ node :: right) := circle
        exact ring.rotate

variable {lists rest : List (List Node)}

theorem Circles.perm
    (circles : Circles links lists)
    (perm : lists.Perm rest) :
    Circles links rest :=
  ⟨fun nodes member => circles.circle nodes (perm.mem_iff.mpr member),
    perm.flatten.nodup_iff.mp circles.nodup⟩

/-- What one list has, the others do not have. -/
theorem Circles.apart
    (circles : Circles links (nodes :: lists))
    {node : Node}
    (member : node ∈ nodes) :
    ∀ list ∈ lists, node ∉ list := by
  intro list inLists inList
  have nodup := circles.nodup
  rw [List.flatten_cons] at nodup
  exact (List.nodup_append.mp nodup).2.2 node member node
    (List.mem_flatten.mpr ⟨list, inLists, inList⟩) rfl

/-- A list may be written from another of its nodes. -/
theorem Circles.turn
    {list turned : List Node}
    (circles : Circles links (list :: lists))
    (rotated : turned ~r list)
    (circle : Circle links turned) :
    Circles links (turned :: lists) := by
  constructor
  · intro nodes member
    rcases List.mem_cons.mp member with rfl | later
    · exact circle
    · exact circles.circle nodes (List.mem_cons_of_mem _ later)
  · have nodup := circles.nodup
    rw [List.flatten_cons] at nodup ⊢
    exact (List.Perm.append_right _ rotated.perm).nodup_iff.mpr nodup

end Lists

/-! ## Walks -/

section Walks

variable [DecidableEq Node]

variable
    {links : Links Node}
    {first head node : Node}
    {nodes : List Node}

theorem walk_of_linked
    (linked : Linked links (first :: (nodes ++ [head])))
    (apart : head ∉ nodes) :
    links.walk head (nodes.length + 1) (links.next first) =
      some (nodes ++ [head]) := by
  induction nodes generalizing first with
  | nil =>
      rw [linked.1]
      exact if_pos rfl
  | cons second nodes ih =>
      rcases linked with ⟨forward, -, linked⟩
      have different : second ≠ head := by
        rintro rfl
        exact apart List.mem_cons_self
      have later := ih linked fun member =>
        apart (List.mem_cons_of_mem _ member)
      rw [forward, List.length_cons, Links.walk, if_neg different, later]
      rfl

/-- A walk along a ring visits its nodes, and ends at the head. -/
theorem Ring.walk
    (ring : Ring links head nodes) :
    links.walk head (nodes.length + 1) (links.next head) =
      some (nodes ++ [head]) :=
  walk_of_linked ring.linked (List.nodup_cons.mp ring.nodup).1

/-- A walk which cannot leave a set without the head does not end. -/
theorem walk_eq_none
    (trap : Set Node)
    (inside : node ∈ trap)
    (stays : ∀ node ∈ trap, links.next node ∈ trap)
    (outside : head ∉ trap)
    (fuel : Nat) :
    links.walk head fuel node = none := by
  induction fuel generalizing node with
  | zero => rfl
  | succ fuel ih =>
      have different : node ≠ head := by
        rintro rfl
        exact outside inside
      rw [Links.walk, if_neg different, ih (stays node inside)]
      rfl

end Walks

/-! ## Rings which are made -/

section Writes

variable [DecidableEq Node]

/-- The node is linked to itself. -/
def Links.single (links : Links Node) (node : Node) : Links Node where
  prev := Function.update links.prev node node
  next := Function.update links.next node node

/-- The two rings become one, in which `second` follows `first`. -/
def Links.merge (links : Links Node) (first second : Node) : Links Node :=
  let after := links.next first
  let last := links.prev second
  { prev :=
      Function.update (Function.update links.prev second first) after last
    next :=
      Function.update (Function.update links.next first second) last after }

variable
    {links : Links Node}
    {first second : Node}
    {nodes others : List Node}

theorem ring_single
    (links : Links Node)
    (node : Node) :
    Ring (links.single node) node [] := by
  refine ⟨⟨?_, ?_, trivial⟩, List.nodup_singleton node⟩
  · exact Function.update_self ..
  · exact Function.update_self ..

/-- A ring stays when a node outside is linked to itself. -/
theorem Ring.single
    (ring : Ring links first nodes)
    (apart : second ∉ first :: nodes) :
    Ring (links.single second) first nodes := by
  apply ring.congr
  · intro node member
    exact Function.update_of_ne (ne_of_mem_of_not_mem member apart) ..
  · intro node member
    exact Function.update_of_ne (ne_of_mem_of_not_mem member apart) ..

/-- A ring stays when others are merged. -/
theorem Ring.merge_others
    {head : Node}
    (ring : Ring links head nodes)
    (notFirst : first ∉ head :: nodes)
    (notSecond : second ∉ head :: nodes)
    (notAfter : links.next first ∉ head :: nodes)
    (notLast : links.prev second ∉ head :: nodes) :
    Ring (links.merge first second) head nodes := by
  apply ring.congr
  · intro node member
    unfold Links.merge
    dsimp only
    rw [Function.update_of_ne (ne_of_mem_of_not_mem member notLast),
      Function.update_of_ne (ne_of_mem_of_not_mem member notFirst)]
  · intro node member
    unfold Links.merge
    dsimp only
    rw [Function.update_of_ne (ne_of_mem_of_not_mem member notAfter),
      Function.update_of_ne (ne_of_mem_of_not_mem member notSecond)]

/-- Two rings without a common node are merged into one. -/
theorem Ring.merge
    (ring : Ring links first nodes)
    (joined : Ring links second others)
    (apart : List.Disjoint (first :: nodes) (second :: others)) :
    Ring (links.merge first second) first (second :: (others ++ nodes)) := by
  rcases List.eq_nil_or_concat (second :: others) with
    empty | ⟨start, last, back⟩
  · cases empty
  cases front : nodes ++ [first] with
  | nil => simp at front
  | cons after rest =>
      rw [List.concat_eq_append] at back
      have isAfter : links.next first = after := by
        rw [ring.ends.1]
        simp only [front, List.head_cons]
      have isLast : links.prev second = last := by
        rw [joined.ends.2]
        simp only [back, List.getLast_append_singleton]
      have lastIn : last ∈ second :: others := by
        rw [back]
        simp
      have afterIn : after ∈ first :: nodes := by
        have member : after ∈ nodes ++ [first] := by
          rw [front]
          exact List.mem_cons_self
        simpa [or_comm] using member
      have different : first ≠ last := by
        rintro rfl
        exact apart List.mem_cons_self lastIn
      have other : after ≠ second := by
        rintro rfl
        exact apart afterIn List.mem_cons_self
      constructor
      · have whole :
            first :: (second :: (others ++ nodes) ++ [first]) =
              first :: (start ++ last :: after :: rest) := by
          have inner :
              second :: (others ++ nodes) ++ [first] =
                (second :: others) ++ (nodes ++ [first]) := by
            simp
          rw [inner, back, front]
          simp
        rw [whole, ← List.cons_append, linked_append, List.cons_append,
          ← back, linked_cons_cons]
        have next :
            (links.merge first second).next =
              Function.update (Function.update links.next first second)
                last after := by
          rw [← isAfter, ← isLast]
          rfl
        have prev :
            (links.merge first second).prev =
              Function.update (Function.update links.prev second first)
                after last := by
          rw [← isAfter, ← isLast]
          rfl
        refine ⟨⟨?_, ?_, ?_⟩, ?_, ?_, ?_⟩
        · rw [next, Function.update_of_ne different, Function.update_self]
        · rw [prev, Function.update_of_ne other.symm, Function.update_self]
        · have before : Linked links (second :: others) := by
            have whole : Linked links ((second :: others) ++ [second]) :=
              joined.linked
            exact whole.front
          refine before.congr ?_ ?_
          · intro node member
            have inside := List.dropLast_subset _ member
            have notLast : node ≠ last := by
              rintro rfl
              have nodup := joined.nodup
              rw [back] at nodup member
              rw [List.dropLast_concat] at member
              exact (List.nodup_append.mp nodup).2.2 node member node
                List.mem_cons_self rfl
            have notFirst : node ≠ first := by
              rintro rfl
              exact apart List.mem_cons_self inside
            rw [next, Function.update_of_ne notLast,
              Function.update_of_ne notFirst]
          · intro node member
            have notAfter : node ≠ after := by
              rintro rfl
              exact apart afterIn (List.mem_cons_of_mem _ member)
            have notSecond : node ≠ second := by
              rintro rfl
              exact (List.nodup_cons.mp joined.nodup).1 member
            rw [prev, Function.update_of_ne notAfter,
              Function.update_of_ne notSecond]
        · rw [next, Function.update_self]
        · rw [prev, Function.update_self]
        · have before : Linked links (nodes ++ [first]) := ring.linked.tail
          rw [← front]
          refine before.congr ?_ ?_
          · intro node member
            rw [List.dropLast_concat] at member
            have notLast : node ≠ last := by
              rintro rfl
              exact apart (List.mem_cons_of_mem _ member) lastIn
            have notFirst : node ≠ first := by
              rintro rfl
              exact (List.nodup_cons.mp ring.nodup).1 member
            rw [next, Function.update_of_ne notLast,
              Function.update_of_ne notFirst]
          · intro node member
            have inside : node ∈ first :: nodes := by
              have whole := List.mem_of_mem_tail member
              simpa [or_comm] using whole
            have notAfter : node ≠ after := by
              rintro rfl
              rw [front, List.tail_cons] at member
              have nodup : (nodes ++ [first]).Nodup :=
                List.nodup_append_comm.mp ring.nodup
              rw [front] at nodup
              exact (List.nodup_cons.mp nodup).1 member
            have notSecond : node ≠ second := by
              rintro rfl
              exact apart inside List.mem_cons_self
            rw [prev, Function.update_of_ne notAfter,
              Function.update_of_ne notSecond]
      · have both : ((first :: nodes) ++ (second :: others)).Nodup :=
          List.nodup_append.mpr
            ⟨ring.nodup, joined.nodup, fun _ here _ there same =>
              apart here (same ▸ there)⟩
        refine List.Perm.nodup ?_ both
        rw [List.cons_append]
        apply List.Perm.cons
        exact List.perm_append_comm

/-- The node is taken out, and linked to itself. -/
def Links.detach (links : Links Node) (node : Node) : Links Node :=
  let last := links.prev node
  let after := links.next node
  ({ prev := Function.update links.prev after last
     next := Function.update links.next last after } : Links Node).single node

theorem ring_detach
    (links : Links Node)
    (node : Node) :
    Ring (links.detach node) node [] :=
  ring_single _ node

/-- The rest of a ring stays one when a node is taken out. -/
theorem Ring.detach
    {head : Node}
    (ring : Ring links head (first :: nodes)) :
    Ring (links.detach head) first nodes := by
  rcases List.eq_nil_or_concat (first :: nodes) with
    empty | ⟨start, last, back⟩
  · cases empty
  rw [List.concat_eq_append] at back
  have isLast : links.prev head = last := by
    rw [ring.ends.2]
    simp only [back, List.getLast_cons (List.append_ne_nil_of_right_ne_nil
      start (List.cons_ne_nil last [])), List.getLast_append_singleton]
  have isAfter : links.next head = first := ring.linked.1
  rcases List.nodup_cons.mp ring.nodup with ⟨apart, nodup⟩
  have next {node : Node} (here : node ≠ head) (there : node ≠ last) :
      (links.detach head).next node = links.next node := by
    unfold Links.detach Links.single
    dsimp only
    rw [Function.update_of_ne here, isLast, Function.update_of_ne there]
  have prev {node : Node} (here : node ≠ head) (there : node ≠ first) :
      (links.detach head).prev node = links.prev node := by
    unfold Links.detach Links.single
    dsimp only
    rw [Function.update_of_ne here, isAfter, Function.update_of_ne there]
  have notHead : ∀ node ∈ first :: nodes, node ≠ head := by
    rintro node member rfl
    exact apart member
  have lastIn : last ∈ first :: nodes := by
    rw [back]
    simp
  refine ⟨?_, nodup⟩
  have whole : first :: (nodes ++ [first]) = start ++ last :: [first] := by
    rw [← List.cons_append, back, List.append_assoc]
    rfl
  rw [whole, linked_append, ← back]
  refine ⟨?_, ?_, ?_, trivial⟩
  · have before : Linked links (first :: nodes) := by
      have tail : Linked links ((first :: nodes) ++ [head]) :=
        ring.linked.tail
      exact tail.front
    refine before.congr ?_ ?_
    · intro node member
      apply next (notHead node (List.dropLast_subset _ member))
      rintro rfl
      rw [back] at nodup member
      rw [List.dropLast_concat] at member
      exact (List.nodup_append.mp nodup).2.2 node member node
        List.mem_cons_self rfl
    · intro node member
      apply prev (notHead node (List.mem_cons_of_mem _ member))
      rintro rfl
      exact (List.nodup_cons.mp nodup).1 member
  · unfold Links.detach Links.single
    dsimp only
    rw [Function.update_of_ne (notHead last lastIn), isLast,
      Function.update_self, isAfter]
  · unfold Links.detach Links.single
    dsimp only
    rw [Function.update_of_ne (notHead first List.mem_cons_self), isAfter,
      Function.update_self, isLast]

/-- A ring stays when a node is taken out of another one. -/
theorem Ring.detach_others
    {head node : Node}
    (ring : Ring links head nodes)
    (notNode : node ∉ head :: nodes)
    (notAfter : links.next node ∉ head :: nodes)
    (notLast : links.prev node ∉ head :: nodes) :
    Ring (links.detach node) head nodes := by
  have changed :
      Ring
        ({ prev :=
             Function.update links.prev (links.next node) (links.prev node)
           next :=
             Function.update links.next (links.prev node) (links.next node) }
          : Links Node) head nodes := by
    apply ring.congr
    · intro other member
      exact Function.update_of_ne (ne_of_mem_of_not_mem member notLast) ..
    · intro other member
      exact Function.update_of_ne (ne_of_mem_of_not_mem member notAfter) ..
  exact changed.single notNode

/-- An item goes between the end and the beginning of the circle. -/
theorem Ring.push
    {head last item : Node}
    {rest : List Node}
    (ring : Ring links head rest)
    (isLast : (head :: rest).getLast? = some last)
    (apart : item ∉ head :: rest) :
    Ring ((links.single item).merge last item) head (rest ++ [item]) := by
  have alone := ring_single links item
  have kept := ring.single apart
  rcases List.eq_nil_or_concat rest with rfl | ⟨middle, other, rfl⟩
  · cases isLast
    exact kept.merge alone (by simpa [eq_comm] using apart)
  · rw [List.concat_eq_append] at isLast kept apart ⊢
    rw [← List.cons_append, List.getLast?_concat] at isLast
    cases isLast
    have turned : Ring (links.single item) last (head :: middle) :=
      kept.rotate
    have disjoint :
        List.Disjoint (last :: (head :: middle)) [item] := by
      intro node member isItem
      cases List.mem_singleton.mp isItem
      apply apart
      simp only [List.mem_cons, List.mem_append] at member ⊢
      tauto
    have merged := turned.merge alone disjoint
    have back :
        Ring ((links.single item).merge last item) head
          (middle ++ last :: [item]) :=
      Ring.rotate merged
    rw [List.append_assoc]
    exact back

/-! ## Many circles -/

variable {lists : List (List Node)}

/-- Two of the circles become one, and the others stay. -/
theorem Circles.merge
    (circles : Circles links ((first :: nodes) :: (second :: others) :: lists)) :
    Circles (links.merge first second)
      ((first :: second :: (others ++ nodes)) :: lists) := by
  have ring : Ring links first nodes :=
    circles.circle _ List.mem_cons_self
  have joined : Ring links second others :=
    circles.circle _ (List.mem_cons_of_mem _ List.mem_cons_self)
  have swapped :
      Circles links ((second :: others) :: (first :: nodes) :: lists) :=
    circles.perm (List.Perm.swap _ _ _)
  have apart : List.Disjoint (first :: nodes) (second :: others) :=
    fun _ here there =>
      circles.apart here _ List.mem_cons_self there
  have fromFirst : ∀ node ∈ first :: nodes, ∀ list ∈ lists, node ∉ list :=
    fun node member list inLists =>
      circles.apart member list (List.mem_cons_of_mem _ inLists)
  have fromSecond : ∀ node ∈ second :: others, ∀ list ∈ lists, node ∉ list :=
    fun node member list inLists =>
      swapped.apart member list (List.mem_cons_of_mem _ inLists)
  constructor
  · intro list member
    rcases List.mem_cons.mp member with rfl | inLists
    · exact ring.merge joined apart
    · have circle := circles.circle list
        (List.mem_cons_of_mem _ (List.mem_cons_of_mem _ inLists))
      cases list with
      | nil => exact circle
      | cons head rest =>
          have other : Ring links head rest := circle
          exact other.merge_others
            (fromFirst first List.mem_cons_self _ inLists)
            (fromSecond second List.mem_cons_self _ inLists)
            (fromFirst _ (ring.next_mem List.mem_cons_self) _ inLists)
            (fromSecond _ (joined.prev_mem List.mem_cons_self) _ inLists)
  · refine List.Perm.nodup ?_ circles.nodup
    simp only [List.flatten_cons, List.cons_append, List.append_assoc]
    apply List.Perm.cons
    have turned :
        (nodes ++ second :: (others ++ lists.flatten)).Perm
          (second :: (nodes ++ (others ++ lists.flatten))) :=
      List.perm_middle
    refine turned.trans ?_
    apply List.Perm.cons
    exact List.perm_append_comm_assoc _ _ _

/-- A node leaves its circle, and the others stay. -/
theorem Circles.detach
    {node : Node}
    (circles : Circles links ((node :: nodes) :: lists)) :
    Circles (links.detach node)
      ([node] :: ([nodes].filter (· ≠ []) ++ lists)) := by
  have ring : Ring links node nodes := circles.circle _ List.mem_cons_self
  have stays : ∀ list ∈ lists, Circle (links.detach node) list := by
    intro list inLists
    have circle := circles.circle list (List.mem_cons_of_mem _ inLists)
    cases list with
    | nil => exact circle
    | cons head rest =>
        have other : Ring links head rest := circle
        exact other.detach_others
          (circles.apart List.mem_cons_self _ inLists)
          (circles.apart (ring.next_mem List.mem_cons_self) _ inLists)
          (circles.apart (ring.prev_mem List.mem_cons_self) _ inLists)
  cases nodes with
  | nil =>
      constructor
      · intro list member
        rcases List.mem_cons.mp member with rfl | inLists
        · exact ring_detach links node
        · exact stays list inLists
      · exact circles.nodup
  | cons second nodes =>
      constructor
      · intro list member
        rcases List.mem_cons.mp member with rfl | later
        · exact ring_detach links node
        · rcases List.mem_cons.mp later with rfl | inLists
          · exact ring.detach
          · exact stays list inLists
      · exact circles.nodup

end Writes

end FudanOS.Library.CircularList
