import FudanOS.Common.RbTree
import Mathlib.Tactic.Tauto

/-!
# Trees in memory

`Stored` says that the memory holds a subtree under a parent, and `Around` that
it holds the path above it.  The lemmas say what the writes of the functions do
to both: a write to a node outside changes nothing, and the writes which hang a
subtree under another node, or another node into the hole, are described once.
-/

namespace FudanOS.Common.RbTree

open FudanOS.Library
open FudanOS.Library.RedBlack

/-! ## The packed word -/

/-- A node is not at `NULL`, and `aligned(sizeof(long))`. -/
def IsNode (node : Pointer) : Prop :=
  node ≠ 0 ∧ node &&& 7 = 0

/-- `(unsigned long)p | color` -/
def pack (parent : Pointer) (color : Color) : BitVec 64 :=
  parent ||| colorBit color

theorem low_bits
    {parent : Pointer}
    (aligned : parent &&& 7 = 0)
    {bit : Nat}
    (low : bit < 3) :
    parent.getLsbD bit = false := by
  have same := congrArg (fun word => word.getLsbD bit) aligned
  have seven : (7 : BitVec 64).getLsbD bit = true := by
    rcases bit with _ | _ | _ | bit
    · rfl
    · rfl
    · rfl
    · omega
  simp only [BitVec.getLsbD_and] at same
  rw [seven, Bool.and_true] at same
  simpa using same

theorem getLsbD_colorBit
    (color : Color)
    (bit : Nat) :
    (colorBit color).getLsbD bit =
      (decide (bit = 0) && decide (color = .black)) := by
  cases color with
  | red => simp [colorBit]
  | black =>
      rcases bit with _ | bit
      · rfl
      · simp [colorBit]

theorem getLsbD_three
    (bit : Nat) :
    (3 : BitVec 64).getLsbD bit = decide (bit < 2) := by
  rcases bit with _ | _ | bit
  · rfl
  · rfl
  · change (BitVec.ofNat 64 3).getLsbD (bit + 2) = _
    rw [BitVec.getLsbD_ofNat, Nat.testBit_succ, Nat.testBit_succ]
    simp

theorem wordParent_pack
    {parent : Pointer}
    (aligned : parent &&& 7 = 0)
    (color : Color) :
    wordParent (pack parent color) = parent := by
  apply BitVec.eq_of_getLsbD_eq
  intro bit inside
  unfold wordParent pack
  rw [BitVec.getLsbD_and, BitVec.getLsbD_or, BitVec.getLsbD_not,
    getLsbD_colorBit, getLsbD_three]
  by_cases low : bit < 2
  · rw [low_bits aligned (by omega)]
    simp [low]
  · have high : bit ≠ 0 := by omega
    simp [low, inside, high]

theorem and_one
    (word : BitVec 64) :
    word &&& 1 = if word.getLsbD 0 then 1 else 0 := by
  apply BitVec.eq_of_getLsbD_eq
  intro bit inside
  rcases bit with _ | bit
  · cases known : word.getLsbD 0 with
    | true => simpa using known
    | false => simpa using known
  · cases known : word.getLsbD 0 with
    | true => simp
    | false => simp

theorem getLsbD_pack_zero
    {parent : Pointer}
    (aligned : parent &&& 7 = 0)
    (color : Color) :
    (pack parent color).getLsbD 0 = decide (color = .black) := by
  unfold pack
  rw [BitVec.getLsbD_or, low_bits aligned (by omega), getLsbD_colorBit]
  simp

theorem wordIsBlack_pack
    {parent : Pointer}
    (aligned : parent &&& 7 = 0)
    (color : Color) :
    wordIsBlack (pack parent color) = decide (color = .black) := by
  unfold wordIsBlack
  rw [and_one, getLsbD_pack_zero aligned]
  cases color <;> decide

theorem pack_and_one
    {parent : Pointer}
    (aligned : parent &&& 7 = 0)
    (color : Color) :
    pack parent color &&& 1 = colorBit color := by
  rw [and_one, getLsbD_pack_zero aligned]
  cases color <;> decide

theorem pack_red (parent : Pointer) : pack parent .red = parent := by
  unfold pack colorBit
  exact BitVec.or_zero

theorem pack_or_black
    (parent : Pointer)
    (color : Color) :
    pack parent color ||| colorBit .black = pack parent .black := by
  unfold pack
  rw [BitVec.or_assoc]
  cases color <;> rfl

/-! ## Writes -/

/-- What a sequence does once its first part has returned. -/
theorem bind_of_eq
    {First Last : Type}
    {program : Except Fault First}
    {value : First}
    {rest : First → Except Fault Last}
    (returned : program = .ok value) :
    (program >>= rest) = rest value := by
  rw [returned]
  rfl

section Writes

variable
    {memory : Memory}
    {node : Pointer}

@[simp]
theorem child_setWord
    (word : BitVec 64) :
    (memory.setWord node word).child = memory.child :=
  rfl

@[simp]
theorem root_setWord
    (word : BitVec 64) :
    (memory.setWord node word).root = memory.root :=
  rfl

@[simp]
theorem parentColor_setChild
    (side : Side)
    (value : Pointer) :
    (memory.setChild side node value).parentColor = memory.parentColor :=
  rfl

@[simp]
theorem root_setChild
    (side : Side)
    (value : Pointer) :
    (memory.setChild side node value).root = memory.root :=
  rfl

theorem parentColor_setWord
    (word : BitVec 64)
    (other : Pointer) :
    (memory.setWord node word).parentColor other =
      if other = node then word else memory.parentColor other := by
  by_cases here : other = node
  · subst here
    simp [Memory.setWord]
  · simp [Memory.setWord, here]

theorem child_setChild
    (side at_ : Side)
    (value other : Pointer) :
    (memory.setChild side node value).child at_ other =
      if at_ = side ∧ other = node then value
      else memory.child at_ other := by
  by_cases same : at_ = side
  · subst same
    by_cases here : other = node
    · subst here
      simp [Memory.setChild]
    · simp [Memory.setChild, here]
  · simp [Memory.setChild, same]

theorem load_eq
    (nonnull : node ≠ 0)
    (side : Side) :
    memory.load side node = .ok (memory.child side node) :=
  if_neg nonnull

theorem store_eq
    (nonnull : node ≠ 0)
    (side : Side)
    (value : Pointer) :
    memory.store side node value =
      .ok (memory.setChild side node value) :=
  if_neg nonnull

theorem loadWord_eq
    (nonnull : node ≠ 0) :
    memory.loadWord node = .ok (memory.parentColor node) :=
  if_neg nonnull

theorem storeWord_eq
    (nonnull : node ≠ 0)
    (word : BitVec 64) :
    memory.storeWord node word = .ok (memory.setWord node word) :=
  if_neg nonnull

/-- The nodes of a list are the same in both memories. -/
def Agrees (names : List Pointer) (memory after : Memory) : Prop :=
  ∀ name ∈ names,
    after.parentColor name = memory.parentColor name ∧
      ∀ side, after.child side name = memory.child side name

theorem Agrees.trans
    {names : List Pointer}
    {middle after : Memory}
    (first : Agrees names memory middle)
    (second : Agrees names middle after) :
    Agrees names memory after := by
  intro name member
  rcases first name member with ⟨word, children⟩
  rcases second name member with ⟨nextWord, nextChildren⟩
  exact ⟨nextWord.trans word,
    fun side => (nextChildren side).trans (children side)⟩

theorem agrees_setWord
    {names : List Pointer}
    (outside : node ∉ names)
    (word : BitVec 64) :
    Agrees names memory (memory.setWord node word) := by
  intro name member
  have different : name ≠ node := by
    rintro rfl
    exact outside member
  exact ⟨(parentColor_setWord word name).trans (if_neg different),
    fun _ => rfl⟩

theorem agrees_setChild
    {names : List Pointer}
    (outside : node ∉ names)
    (side : Side)
    (value : Pointer) :
    Agrees names memory (memory.setChild side node value) := by
  intro name member
  have different : name ≠ node := by
    rintro rfl
    exact outside member
  refine ⟨rfl, fun at_ => ?_⟩
  rw [child_setChild, if_neg]
  exact fun both => different both.2

end Writes

/-! ## Subtrees -/

/-- The address of the top node, `NULL` for the empty tree. -/
def rootOf : RedBlack.Tree Pointer → Pointer
  | .nil => 0
  | .node _ _ name _ => name

@[simp]
theorem rootOf_build
    (side : Side)
    (color : Color)
    (near : RedBlack.Tree Pointer)
    (name : Pointer)
    (far : RedBlack.Tree Pointer) :
    rootOf (.build side color near name far) = name := by
  cases side <;> rfl

@[simp]
theorem rootOf_paint
    (color : Color)
    (tree : RedBlack.Tree Pointer) :
    rootOf (tree.paint color) = rootOf tree := by
  cases tree <;> rfl

theorem rootOf_mem
    {tree : RedBlack.Tree Pointer}
    (nonnull : rootOf tree ≠ 0) :
    rootOf tree ∈ tree.names := by
  cases tree with
  | nil => exact absurd rfl nonnull
  | node color left name right => simp [rootOf, RedBlack.Tree.names]

/-- The memory holds the tree, and its top node has that parent. -/
def Stored (memory : Memory) : Pointer → RedBlack.Tree Pointer → Prop
  | _, .nil => True
  | parent, .node color left name right =>
      IsNode name ∧ memory.parentColor name = pack parent color ∧
        memory.child .left name = rootOf left ∧
        memory.child .right name = rootOf right ∧
        Stored memory name left ∧ Stored memory name right

section Stored

variable
    {memory after : Memory}
    {parent : Pointer}
    {tree : RedBlack.Tree Pointer}

theorem stored_build
    {side : Side}
    {color : Color}
    {near far : RedBlack.Tree Pointer}
    {name : Pointer} :
    Stored memory parent (.build side color near name far) ↔
      IsNode name ∧ memory.parentColor name = pack parent color ∧
        memory.child side name = rootOf near ∧
        memory.child side.other name = rootOf far ∧
        Stored memory name near ∧ Stored memory name far := by
  cases side with
  | left => rfl
  | right =>
      simp only [RedBlack.Tree.build, Stored, Side.other]
      tauto

theorem Stored.isNode
    (stored : Stored memory parent tree)
    {name : Pointer}
    (member : name ∈ tree.names) :
    IsNode name := by
  induction tree generalizing parent with
  | nil => exact absurd member List.not_mem_nil
  | node color left top right leftIh rightIh =>
      rcases stored with ⟨isNode, -, -, -, inLeft, inRight⟩
      rcases List.mem_append.mp member with early | late
      · exact leftIh inLeft early
      · rcases List.mem_cons.mp late with rfl | later
        · exact isNode
        · exact rightIh inRight later

theorem Stored.rootOf_ne_zero
    (stored : Stored memory parent tree)
    (nonempty : tree ≠ .nil) :
    rootOf tree ≠ 0 := by
  cases tree with
  | nil => exact absurd rfl nonempty
  | node color left name right => exact stored.1.1

/-- A tree whose nodes are not written is still there. -/
theorem Stored.frame
    (stored : Stored memory parent tree)
    (agrees : Agrees tree.names memory after) :
    Stored after parent tree := by
  induction tree generalizing parent with
  | nil => trivial
  | node color left name right leftIh rightIh =>
      rcases stored with ⟨isNode, word, toLeft, toRight, inLeft, inRight⟩
      have here := agrees name (by simp [RedBlack.Tree.names])
      refine ⟨isNode, here.1.trans word, (here.2 .left).trans toLeft,
        (here.2 .right).trans toRight, leftIh inLeft ?_,
        rightIh inRight ?_⟩
      · intro other member
        exact agrees other (by simp [RedBlack.Tree.names, member])
      · intro other member
        exact agrees other (by simp [RedBlack.Tree.names, member])

/-- The top node is hung under another parent, in another colour. -/
def rehang (tree : RedBlack.Tree Pointer) (parent : Pointer) (color : Color)
    (memory : Memory) : Memory :=
  if rootOf tree ≠ 0 then
    memory.setWord (rootOf tree) (pack parent color)
  else
    memory

@[simp]
theorem child_rehang
    (color : Color) :
    (rehang tree parent color memory).child = memory.child := by
  unfold rehang
  split_ifs <;> rfl

@[simp]
theorem root_rehang
    (color : Color) :
    (rehang tree parent color memory).root = memory.root := by
  unfold rehang
  split_ifs <;> rfl

theorem agrees_rehang
    {names : List Pointer}
    (apart : tree.names.Disjoint names)
    (color : Color) :
    Agrees names memory (rehang tree parent color memory) := by
  unfold rehang
  split_ifs with nonnull
  · exact agrees_setWord (fun member => apart (rootOf_mem nonnull) member) _
  · exact fun _ _ => ⟨rfl, fun _ => rfl⟩

theorem parentColor_rehang
    {name : Pointer}
    (outside : name ∉ tree.names)
    (color : Color) :
    (rehang tree parent color memory).parentColor name =
      memory.parentColor name := by
  have apart : tree.names.Disjoint [name] := by
    simpa using outside
  exact (agrees_rehang apart color name (List.mem_singleton_self name)).1

theorem Stored.rehang
    (stored : Stored memory parent tree)
    (nodup : tree.names.Nodup)
    (above : Pointer)
    (color : Color) :
    Stored (RbTree.rehang tree above color memory) above
      (tree.paint color) := by
  cases tree with
  | nil => trivial
  | node painted left name right =>
      rcases stored with ⟨isNode, -, toLeft, toRight, inLeft, inRight⟩
      have apart : name ∉ left.names ∧ name ∉ right.names := by
        simp only [RedBlack.Tree.names, List.nodup_append', List.nodup_cons,
          List.disjoint_cons_right] at nodup
        exact ⟨nodup.2.2.1, nodup.2.1.1⟩
      have nonnull : rootOf (.node painted left name right) ≠ 0 :=
        isNode.1
      unfold RbTree.rehang
      rw [if_pos nonnull]
      refine ⟨isNode, ?_, toLeft, toRight,
        inLeft.frame (agrees_setWord apart.1 _),
        inRight.frame (agrees_setWord apart.2 _)⟩
      exact (parentColor_setWord _ _).trans (if_pos rfl)

theorem setParentColorIf_eq
    (color : Color) :
    rbSetParentColorIf (rootOf tree) parent color memory =
      .ok (rehang tree parent color memory) := by
  unfold rbSetParentColorIf rehang
  split_ifs with nonnull
  · exact storeWord_eq nonnull _
  · rfl

/-- The colour of the top node, as the code reads it. -/
theorem Stored.isRedIf
    (stored : Stored memory parent tree)
    (aligned : parent &&& 7 = 0) :
    rbIsRedIf (rootOf tree) memory =
      .ok (decide (tree.color = .red)) := by
  cases tree with
  | nil => rfl
  | node color left name right =>
      rcases stored with ⟨isNode, word, -⟩
      have nonnull : rootOf (.node color left name right) ≠ 0 :=
        isNode.1
      unfold rbIsRedIf rbIsRed
      rw [if_pos nonnull, rootOf, loadWord_eq isNode.1, word]
      change Except.ok (!wordIsBlack (pack parent color)) = _
      rw [wordIsBlack_pack aligned]
      cases color <;> rfl

end Stored

/-! ## The path above -/

/-- The address of the node around the hole, `NULL` at the root. -/
def parentOf : Path Pointer → Pointer
  | [] => 0
  | frame :: _ => frame.name

/-- The memory holds the path, and the hole has that address. -/
def Around (memory : Memory) : Path Pointer → Pointer → Prop
  | [], hole => memory.root = hole
  | frame :: rest, hole =>
      IsNode frame.name ∧
        memory.parentColor frame.name =
          pack (parentOf rest) frame.color ∧
        memory.child frame.side frame.name = hole ∧
        memory.child frame.side.other frame.name =
          rootOf frame.sibling ∧
        Stored memory frame.name frame.sibling ∧
        Around memory rest frame.name

/-- The memory holds the tree. -/
def Whole (memory : Memory) (tree : RedBlack.Tree Pointer) : Prop :=
  memory.root = rootOf tree ∧ Stored memory 0 tree

section Around

variable
    {memory after : Memory}
    {path : Path Pointer}
    {hole : Pointer}

theorem whole_plug
    {tree : RedBlack.Tree Pointer} :
    Whole memory (path.plug tree) ↔
      Around memory path (rootOf tree) ∧
        Stored memory (parentOf path) tree := by
  induction path generalizing tree with
  | nil => rfl
  | cons frame rest ih =>
      rw [Path.plug, ih, rootOf_build, stored_build]
      simp only [Around, parentOf]
      tauto

theorem Around.aligned
    (around : Around memory path hole) :
    parentOf path &&& 7 = 0 := by
  cases path with
  | nil => decide
  | cons frame rest => exact around.1.2

theorem Around.frame
    (around : Around memory path hole)
    (agrees : Agrees (Path.names path) memory after)
    (root : after.root = memory.root) :
    Around after path hole := by
  induction path generalizing hole with
  | nil => exact root.trans around
  | cons frame rest ih =>
      rcases around with ⟨isNode, word, toHole, toSibling, sibling, above⟩
      have here := agrees frame.name (by simp [Path.names])
      refine ⟨isNode, here.1.trans word,
        (here.2 _).trans toHole, (here.2 _).trans toSibling,
        sibling.frame ?_, ih above ?_⟩
      · intro name member
        exact agrees name (by simp [Path.names, member])
      · intro name member
        apply agrees name
        simp only [Path.names, List.flatMap_cons, List.mem_append]
        exact Or.inr member

/-- `__rb_change_child` puts another address into the hole. -/
theorem Around.changeChild
    (around : Around memory path hole)
    (nonnull : hole ≠ 0)
    (outside : hole ∉ Path.names path)
    (nodup : (Path.names path).Nodup)
    (new : Pointer) :
    ∃ after,
      rbChangeChild hole new (parentOf path) memory = .ok after ∧
        Around after path new ∧
        after.parentColor = memory.parentColor ∧
        ∀ side name, name ∉ Path.names path →
          after.child side name = memory.child side name := by
  cases path with
  | nil =>
      exact ⟨{ memory with root := new }, rfl, rfl, rfl, fun _ _ _ => rfl⟩
  | cons frame rest =>
      rcases around with ⟨isNode, word, toHole, toSibling, sibling, above⟩
      simp only [Path.names, List.flatMap_cons, List.cons_append,
        List.nodup_cons, List.mem_append, not_or] at nodup
      have changed :
          rbChangeChild hole new frame.name memory =
            .ok (memory.setChild frame.side frame.name new) := by
        unfold rbChangeChild
        rw [if_pos isNode.1, load_eq isNode.1]
        change
          (if memory.child .left frame.name = hole then _ else _ :
            Except Fault Memory) = _
        cases known : frame.side with
        | left =>
            rw [known] at toHole
            rw [if_pos toHole, store_eq isNode.1]
        | right =>
            rw [known] at toSibling
            have different : memory.child .left frame.name ≠ hole := by
              intro same
              have isRoot : rootOf frame.sibling = hole :=
                toSibling.symm.trans same
              apply outside
              have member : rootOf frame.sibling ∈ frame.sibling.names :=
                rootOf_mem (by rwa [isRoot])
              rw [isRoot] at member
              simp [Path.names, member]
            rw [if_neg different, store_eq isNode.1]
      refine ⟨_, changed, ?_, rfl, ?_⟩
      · refine ⟨isNode, word, ?_, ?_, ?_, ?_⟩
        · rw [child_setChild, if_pos ⟨rfl, rfl⟩]
        · rw [child_setChild, if_neg]
          · exact toSibling
          · exact fun both => frame.side.other_ne both.1
        · exact sibling.frame (agrees_setChild nodup.1.1 _ _)
        · exact above.frame (agrees_setChild nodup.1.2 _ _) rfl
      · intro side name notThere
        rw [child_setChild, if_neg]
        rintro ⟨-, rfl⟩
        exact notThere (by simp [Path.names])

/-- `__rb_rotate_set_parents` puts another node into the hole. -/
theorem Around.rotateSetParents
    {old new : Pointer}
    (around : Around memory path old)
    (oldNode : IsNode old)
    (newNode : IsNode new)
    (different : old ≠ new)
    (oldOutside : old ∉ Path.names path)
    (newOutside : new ∉ Path.names path)
    (nodup : (Path.names path).Nodup)
    {kept : Color}
    (word : memory.parentColor old = pack (parentOf path) kept)
    (color : Color) :
    ∃ after,
      rbRotateSetParents old new color memory = .ok after ∧
        Around after path new ∧
        after.parentColor new = pack (parentOf path) kept ∧
        after.parentColor old = pack new color ∧
        (∀ side name, name ∉ Path.names path →
          after.child side name = memory.child side name) ∧
        ∀ names, old ∉ names → new ∉ names →
          names.Disjoint (Path.names path) →
            Agrees names memory after := by
  let first := memory.setWord new (pack (parentOf path) kept)
  let second := first.setWord old (pack new color)
  have still : Around second path old := by
    refine around.frame ?_ rfl
    exact (agrees_setWord newOutside _).trans
      (agrees_setWord oldOutside _)
  rcases still.changeChild oldNode.1 oldOutside nodup new with
    ⟨after, changed, placed, words, children⟩
  refine ⟨after, ?_, placed, ?_, ?_, ?_, ?_⟩
  · have aboveEq : rbParent old memory = .ok (parentOf path) := by
      refine (bind_of_eq (loadWord_eq oldNode.1)).trans ?_
      rw [word, wordParent_pack around.aligned]
      rfl
    refine (bind_of_eq aboveEq).trans ?_
    refine (bind_of_eq (loadWord_eq oldNode.1)).trans ?_
    rw [word]
    refine (bind_of_eq (storeWord_eq newNode.1 _)).trans ?_
    exact (bind_of_eq (storeWord_eq oldNode.1 _)).trans changed
  · rw [words]
    change (first.setWord old _).parentColor new = _
    rw [parentColor_setWord, if_neg different.symm]
    exact (parentColor_setWord _ _).trans (if_pos rfl)
  · rw [words]
    exact (parentColor_setWord _ _).trans (if_pos rfl)
  · exact children
  · intro names notOld notNew apart
    have written : Agrees names memory second :=
      (agrees_setWord notNew _).trans (agrees_setWord notOld _)
    refine written.trans fun name member => ⟨?_, ?_⟩
    · rw [words]
    · intro side
      exact children side name fun there => apart member there

end Around

end FudanOS.Common.RbTree
