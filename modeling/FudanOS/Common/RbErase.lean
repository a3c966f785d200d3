import FudanOS.Common.RbInsert

/-!
# Erasure from the red-black tree

`__rb_erase` takes a node out of the tree in memory.  When a black node is gone
from a path, the subtree in its hole is one black short, and `__rb_erase_fix`
moves that hole up until the tree is balanced again.
-/

namespace FudanOS.Common.RbTree

open FudanOS.Library
open FudanOS.Library.RedBlack

section Cases

variable
    {memory : Memory}
    {path : Path Pointer}
    {side : Side}
    {color : Color}
    {tree near far : RedBlack.Tree Pointer}
    {parent sibling above : Pointer}

/-- The end of a rotation: the lower node takes the place of the upper. -/
theorem Around.settle
    {down across : Side}
    {first second other : RedBlack.Tree Pointer}
    {old new : Pointer}
    (around : Around memory path old)
    (rotated : Rotated path first old second new other)
    (oldNode : IsNode old)
    (newNode : IsNode new)
    (word : memory.parentColor old = pack (parentOf path) color)
    (toOld : memory.child down new = old)
    (toOther : memory.child down.other new = rootOf other)
    (inOther : Stored memory new other)
    (toFirst : memory.child across old = rootOf first)
    (inFirst : Stored memory old first)
    (toSecond : memory.child across.other old = rootOf second)
    (inSecond : Stored memory old second)
    (painted : Color) :
    ∃ after,
      rbRotateSetParents old new painted memory = .ok after ∧
        Around after path new ∧
        Stored after (parentOf path)
          (.build down color (.build across painted first old second) new
            other) := by
  rcases around.rotateSetParents oldNode newNode rotated.different.symm
      rotated.lowerOutside rotated.upperOutside rotated.pathNodup word
      painted with
    ⟨after, turned, placed, newWord, oldWord, children, agrees⟩
  refine ⟨after, turned, placed,
    stored_build.mpr ⟨newNode, newWord, ?_, ?_,
      stored_build.mpr ⟨oldNode, oldWord, ?_, ?_, ?_, ?_⟩, ?_⟩⟩
  · rw [children _ _ rotated.upperOutside, rootOf_build]
    exact toOld
  · rw [children _ _ rotated.upperOutside]
    exact toOther
  · rw [children _ _ rotated.lowerOutside]
    exact toFirst
  · rw [children _ _ rotated.lowerOutside]
    exact toSecond
  · exact inFirst.frame
      (agrees _ rotated.lowerNear rotated.upperNear rotated.nearOutside)
  · exact inSecond.frame
      (agrees _ rotated.lowerMiddle rotated.upperMiddle
        rotated.middleOutside)
  · exact inOther.frame
      (agrees _ rotated.lowerFar rotated.upperFar rotated.farOutside)

/-- The parent comes down beside the hole, with the near subtree. -/
structure Lowered
    (memory after : Memory)
    (side : Side)
    (tree : RedBlack.Tree Pointer)
    (parent : Pointer)
    (near : RedBlack.Tree Pointer)
    (sibling : Pointer)
    (far : RedBlack.Tree Pointer) : Prop where
  toTree : after.child side parent = rootOf tree
  inTree : Stored after parent tree
  toNear : after.child side.other parent = rootOf near
  toParent : after.child side sibling = parent
  toFar : after.child side.other sibling = rootOf far
  word : after.parentColor parent = memory.parentColor parent
  root : after.root = memory.root
  agrees :
    ∀ names, parent ∉ names → sibling ∉ names →
      near.names.Disjoint names → Agrees names memory after

theorem lowered
    (rotated : Rotated path tree parent near sibling far)
    (toTree : memory.child side parent = rootOf tree)
    (inTree : Stored memory parent tree)
    (toFar : memory.child side.other sibling = rootOf far)
    (painted : Color) :
    Lowered memory
      ((rehang near parent painted
        (memory.setChild side.other parent (rootOf near))).setChild side
          sibling parent)
      side tree parent near sibling far := by
  have agrees :
      ∀ names, parent ∉ names → sibling ∉ names →
        near.names.Disjoint names →
          Agrees names memory
            ((rehang near parent painted
              (memory.setChild side.other parent (rootOf near))).setChild
                side sibling parent) := by
    intro names notParent notSibling apart
    exact ((agrees_setChild notParent _ _).trans
      (agrees_rehang apart _)).trans (agrees_setChild notSibling _ _)
  constructor
  · simp [child_setChild, rotated.different.symm, toTree]
  · refine inTree.frame
      (agrees _ rotated.lowerNear rotated.upperNear ?_)
    exact fun name here there => rotated.nearMiddle there here
  · simp [child_setChild, rotated.different.symm]
  · simp [child_setChild]
  · simp [child_setChild, rotated.different, toFar]
  · exact parentColor_rehang rotated.lowerMiddle _
  · simp
  · exact agrees

/-- The near subtree hangs under the parent. -/
theorem lowered_near
    (side : Side)
    (rotated : Rotated path tree parent near sibling far)
    (inNear : Stored memory above near)
    (painted : Color) :
    Stored
      ((rehang near parent painted
        (memory.setChild side.other parent (rootOf near))).setChild side
          sibling parent)
      parent (near.paint painted) := by
  have hung :=
    (inNear.frame (agrees_setChild rotated.lowerMiddle side.other
      (rootOf near))).rehang rotated.middleNodup parent painted
  refine hung.frame (agrees_setChild ?_ _ _)
  rw [RedBlack.Tree.names_paint]
  exact rotated.upperMiddle

/-- Case 1: the red sibling comes up, and its near child is the sibling. -/
theorem eraseRotate_spec
    (around : Around memory path parent)
    (stored :
      Stored memory (parentOf path)
        (.build side color tree parent
          (.build side .red near sibling far)))
    (rotated : Rotated path tree parent near sibling far)
    (hasNear : rootOf near ≠ 0)
    (blackNear : near.color = .black) :
    ∃ after,
      eraseRotate side parent sibling memory =
          .ok (rootOf near, after) ∧
        Around after path sibling ∧
        Stored after (parentOf path)
          (.build side color (.build side .red tree parent near) sibling
            far) := by
  rcases stored_build.mp stored with
    ⟨parentNode, word, toTree, -, inTree, inSibling⟩
  rcases stored_build.mp inSibling with
    ⟨siblingNode, -, toNear, toFar, inNear, inFar⟩
  have moved := lowered rotated toTree inTree toFar .black
  have inParent :=
    lowered_near side rotated inNear .black
  rw [RedBlack.Tree.paint_color blackNear] at inParent
  have placed := around.frame
    (moved.agrees _ rotated.lowerOutside rotated.upperOutside
      rotated.middleOutside) moved.root
  have inSiblingFar := inFar.frame
    (moved.agrees _ rotated.lowerFar rotated.upperFar rotated.middleFar)
  rcases placed.settle rotated parentNode siblingNode
      (moved.word.trans word) moved.toParent moved.toFar inSiblingFar
      moved.toTree moved.inTree moved.toNear inParent .red with
    ⟨after, turned, placedAfter, storedAfter⟩
  refine ⟨after, ?_, placedAfter, storedAfter⟩
  have hung :
      rbSetParentColor (rootOf near) parent .black
          (memory.setChild side.other parent (rootOf near)) =
        .ok (rehang near parent .black
          (memory.setChild side.other parent (rootOf near))) := by
    simp only [rehang, if_pos hasNear]
    exact storeWord_eq hasNear _
  refine (bind_of_eq (load_eq siblingNode.1 _)).trans ?_
  rw [toNear]
  refine (bind_of_eq (store_eq parentNode.1 _ _)).trans ?_
  refine (bind_of_eq hung).trans ?_
  refine (bind_of_eq (store_eq siblingNode.1 _ _)).trans ?_
  exact bind_of_eq turned

/-- `if (tmp) rb_set_parent(tmp, p);` keeps the colour. -/
theorem setParentIf_eq
    (parent : Pointer)
    (inNear : Stored memory above near)
    (aligned : above &&& 7 = 0) :
    rbSetParentIf (rootOf near) parent memory =
      .ok (rehang near parent near.color memory) := by
  unfold rehang rbSetParentIf
  split_ifs with nonnull
  · cases near with
    | nil => exact absurd rfl nonnull
    | node painted left name right =>
        rcases inNear with ⟨isNode, word, -⟩
        refine (bind_of_eq (loadWord_eq isNode.1)).trans ?_
        rw [word, pack_and_one aligned, BitVec.or_comm]
        exact storeWord_eq isNode.1 _
  · rfl

/-- Case 4, whatever the far child still says of its parent. -/
theorem eraseOuter_spec
    (around : Around memory path parent)
    (rotated : Rotated path tree parent near sibling far)
    (parentNode : IsNode parent)
    (word : memory.parentColor parent = pack (parentOf path) color)
    (toTree : memory.child side parent = rootOf tree)
    (inTree : Stored memory parent tree)
    (siblingNode : IsNode sibling)
    (toNear : memory.child side sibling = rootOf near)
    (inNear : Stored memory sibling near)
    (toFar : memory.child side.other sibling = rootOf far)
    (inFar : Stored memory above far)
    (hasFar : rootOf far ≠ 0) :
    ∃ after,
      eraseOuter side parent sibling (rootOf far) memory = .ok after ∧
        Around after path sibling ∧
        Stored after (parentOf path)
          (.build side color (.build side .black tree parent near) sibling
            (far.paint .black)) := by
  have moved := lowered rotated toTree inTree toFar near.color
  have inParent := lowered_near side rotated inNear near.color
  rw [RedBlack.Tree.paint_color rfl] at inParent
  let middle :=
    (rehang near parent near.color
      (memory.setChild side.other parent (rootOf near))).setChild side
        sibling parent
  let painted := rehang far sibling .black middle
  have reaches :
      ∀ names, far.names.Disjoint names → Agrees names middle painted :=
    fun names apart => agrees_rehang apart _
  have repainted : Rotated path tree parent near sibling
      (far.paint .black) := by
    refine ⟨rotated.nearNodup, rotated.middleNodup, ?_, rotated.pathNodup,
      rotated.different, rotated.lowerNear, rotated.lowerMiddle, ?_,
      rotated.lowerOutside, rotated.upperNear, rotated.upperMiddle, ?_,
      rotated.upperOutside, rotated.nearMiddle, ?_, ?_,
      rotated.nearOutside, rotated.middleOutside, ?_⟩
    · rw [RedBlack.Tree.names_paint]
      exact rotated.farNodup
    · rw [RedBlack.Tree.names_paint]
      exact rotated.lowerFar
    · rw [RedBlack.Tree.names_paint]
      exact rotated.upperFar
    · rw [RedBlack.Tree.names_paint]
      exact rotated.nearFar
    · rw [RedBlack.Tree.names_paint]
      exact rotated.middleFar
    · rw [RedBlack.Tree.names_paint]
      exact rotated.farOutside
  have placed : Around painted path parent := by
    refine (around.frame
      (moved.agrees _ rotated.lowerOutside rotated.upperOutside
        rotated.middleOutside) moved.root).frame
      (reaches _ rotated.farOutside) ?_
    exact root_rehang _
  have paintedWord :
      painted.parentColor parent = pack (parentOf path) color :=
    (parentColor_rehang rotated.lowerFar _).trans
      (moved.word.trans word)
  have inSibling : Stored painted sibling (far.paint .black) :=
    (inFar.frame (moved.agrees _ rotated.lowerFar rotated.upperFar
      rotated.middleFar)).rehang rotated.farNodup sibling .black
  have toParent : painted.child side sibling = parent := by
    rw [child_rehang]
    exact moved.toParent
  have toPainted :
      painted.child side.other sibling = rootOf (far.paint .black) := by
    rw [child_rehang, rootOf_paint]
    exact moved.toFar
  have toTreePainted : painted.child side parent = rootOf tree := by
    rw [child_rehang]
    exact moved.toTree
  have toNearPainted : painted.child side.other parent = rootOf near := by
    rw [child_rehang]
    exact moved.toNear
  have inTreePainted : Stored painted parent tree :=
    moved.inTree.frame
      (reaches _ fun name here there => rotated.nearFar there here)
  have inNearPainted : Stored painted parent near :=
    inParent.frame
      (reaches _ fun name here there => rotated.middleFar there here)
  rcases placed.settle repainted parentNode siblingNode paintedWord
      toParent toPainted inSibling toTreePainted inTreePainted
      toNearPainted inNearPainted .black with
    ⟨after, turned, placedAfter, storedAfter⟩
  refine ⟨after, ?_, placedAfter, storedAfter⟩
  have kept :
      Stored (memory.setChild side.other parent (rootOf near)) sibling
        near :=
    inNear.frame (agrees_setChild rotated.lowerMiddle _ _)
  have hung :
      rbSetParentColor (rootOf far) sibling .black middle =
        .ok painted := by
    simp only [painted, rehang, if_pos hasFar]
    exact storeWord_eq hasFar _
  refine (bind_of_eq (load_eq siblingNode.1 _)).trans ?_
  rw [toNear]
  refine (bind_of_eq (store_eq parentNode.1 _ _)).trans ?_
  refine (bind_of_eq (setParentIf_eq _ kept siblingNode.2)).trans ?_
  refine (bind_of_eq (store_eq siblingNode.1 _ _)).trans ?_
  exact (bind_of_eq hung).trans turned

/-- Case 3: the near child comes up, with the sibling under it. -/
theorem eraseInner_spec
    {inner outer : RedBlack.Tree Pointer}
    {tmp2 : Pointer}
    (parentNode : IsNode parent)
    (siblingNode : IsNode sibling)
    (siblingWord : memory.parentColor sibling = pack parent color)
    (toFar : memory.child side.other sibling = rootOf far)
    (inFar : Stored memory sibling far)
    (inNear : Stored memory sibling (.build side .red inner tmp2 outer))
    (blackOuter : outer.color = .black)
    (rotated : Rotated path inner tmp2 outer sibling far)
    (parentTmp2 : parent ≠ tmp2)
    (parentSibling : parent ≠ sibling)
    (parentInner : parent ∉ inner.names)
    (parentOuter : parent ∉ outer.names)
    (parentFar : parent ∉ far.names) :
    ∃ after,
      eraseInner side parent sibling tmp2 memory = .ok after ∧
        after.root = memory.root ∧
        after.parentColor parent = memory.parentColor parent ∧
        after.child side parent = memory.child side parent ∧
        after.child side tmp2 = rootOf inner ∧
        Stored after tmp2 inner ∧
        after.child side.other tmp2 = sibling ∧
        Stored after parent (.build side color outer sibling far) ∧
        ∀ names, parent ∉ names → sibling ∉ names → tmp2 ∉ names →
          outer.names.Disjoint names → Agrees names memory after := by
  rcases stored_build.mp inNear with
    ⟨tmp2Node, -, toInner, toOuter, inInner, inOuter⟩
  let first := memory.setChild side sibling (rootOf outer)
  let second := rehang outer sibling .black first
  let third := second.setChild side.other tmp2 sibling
  let fourth := third.setChild side.other parent tmp2
  have reaches :
      ∀ names, parent ∉ names → sibling ∉ names → tmp2 ∉ names →
        outer.names.Disjoint names → Agrees names memory fourth := by
    intro names notParent notSibling notTmp2 apart
    exact (((agrees_setChild notSibling _ _).trans
      (agrees_rehang apart _)).trans (agrees_setChild notTmp2 _ _)).trans
        (agrees_setChild notParent _ _)
  have fourthOuter : Stored fourth sibling outer := by
    have hung :=
      (inOuter.frame (agrees_setChild rotated.upperMiddle side
        (rootOf outer))).rehang rotated.middleNodup sibling .black
    rw [RedBlack.Tree.paint_color blackOuter] at hung
    exact (hung.frame (agrees_setChild rotated.lowerMiddle _ _)).frame
      (agrees_setChild parentOuter _ _)
  refine ⟨fourth, ?_, ?_, ?_, ?_, ?_, ?_, ?_, ?_, reaches⟩
  · refine (bind_of_eq (load_eq tmp2Node.1 _)).trans ?_
    rw [toOuter]
    refine (bind_of_eq (store_eq siblingNode.1 _ _)).trans ?_
    refine (bind_of_eq (setParentColorIf_eq _)).trans ?_
    refine (bind_of_eq (store_eq tmp2Node.1 _ _)).trans ?_
    exact store_eq parentNode.1 _ _
  · simp [first, second, third, fourth]
  · exact parentColor_rehang parentOuter _
  · simp [first, second, third, fourth, child_setChild, parentSibling]
  · simp [first, second, third, fourth, child_setChild,
      rotated.different.symm, toInner]
  · refine inInner.frame
      (reaches _ parentInner rotated.upperNear rotated.lowerNear ?_)
    exact fun name here there => rotated.nearMiddle there here
  · simp [third, fourth, child_setChild, parentTmp2.symm]
  · refine stored_build.mpr
      ⟨siblingNode, ?_, ?_, ?_, fourthOuter, ?_⟩
    · exact (parentColor_rehang rotated.upperMiddle _).trans siblingWord
    · simp [first, second, third, fourth, child_setChild]
    · simp [first, second, third, fourth, child_setChild,
        parentSibling.symm, rotated.different, toFar]
    · exact inFar.frame
        (reaches _ parentFar rotated.upperFar rotated.lowerFar
          rotated.middleFar)

end Cases

/-! ## The loop of `__rb_erase_fix` -/

section Loop

variable
    {memory : Memory}
    {path : Path Pointer}
    {side : Side}
    {color : Color}
    {tree near far : RedBlack.Tree Pointer}
    {parent sibling : Pointer}
    {height : Nat}

/-- The names around a rotation at the parent. -/
theorem Holds.rotated
    {lower : Color}
    (holds :
      Holds memory
        (⟨side, color, parent, .build side lower near sibling far⟩ ::
          path) tree) :
    Rotated path tree parent near sibling far := by
  have same :=
    RedBlack.Tree.names_rotate side color color color lower tree near far parent
      sibling
  have nodup := (holds_cons.mp holds).nodup
  rw [Path.names_plug_congr path same] at nodup
  exact rotated_of_nodup nodup

/-- The far child of the sibling is red. -/
theorem eraseFixBlack_far
    (holds :
      Holds memory
        (⟨side, color, parent, .build side .black near sibling far⟩ ::
          path) tree)
    (balanced : Balanced tree height)
    (accepts :
      Path.Accepts
        (⟨side, color, parent, .build side .black near sibling far⟩ ::
          path) (height + 1) .black)
    (redFar : far.color = .red) :
    ∃ after,
      eraseFixBlack side parent sibling memory = .ok (.done, after) ∧
        HoldsBalanced after
          (Path.plug
            (⟨side, color, parent, .build side .black near sibling far⟩ ::
              path) tree).names := by
  rcases holds_cons.mp holds with ⟨around, stored, nodup⟩
  dsimp only at around stored nodup
  rw [rootOf_build] at around
  rcases stored_build.mp stored with
    ⟨parentNode, word, toTree, -, inTree, inSibling⟩
  rcases stored_build.mp inSibling with
    ⟨siblingNode, -, toNear, toFar, inNear, inFar⟩
  have rotated := holds.rotated
  rcases balanced_black.mp accepts.1 with ⟨nearBalanced, farBalanced⟩
  have hasFar : rootOf far ≠ 0 := by
    cases far with
    | nil => cases redFar
    | node painted left name right => exact inFar.1.1
  rcases eraseOuter_spec around rotated parentNode word toTree inTree
      siblingNode toNear inNear toFar inFar hasFar with
    ⟨after, turned, placed, storedAfter⟩
  have same :
      (RedBlack.Tree.build side color (.build side .black tree parent near) sibling
        (far.paint .black)).names =
      (RedBlack.Tree.build side color tree parent
        (.build side .black near sibling far)).names :=
    (RedBlack.Tree.names_colors _ color color _ rfl
      (RedBlack.Tree.names_paint _ _)).trans
        (RedBlack.Tree.names_rotate side color .black color .black tree near far
          parent sibling).symm
  refine ⟨after, ?_, ?_⟩
  · refine (bind_of_eq (load_eq siblingNode.1 _)).trans ?_
    rw [toFar]
    refine (bind_of_eq (inFar.isRedIf siblingNode.2)).trans ?_
    rw [redFar]
    exact bind_of_eq turned
  · rw [Path.plug, ← Path.names_plug_congr path same]
    rw [← Path.names_plug_congr path same] at nodup
    have blackFar : (far.paint .black).color = .black := by
      cases far with
      | nil => rfl
      | node painted left name right => rfl
    have lowered :
        Balanced (.build side .black tree parent near) (height + 1) :=
      balanced_black.mpr ⟨balanced, nearBalanced⟩
    rcases accepts.rebuild lowered (farBalanced.blacken redFar)
        (RedBlack.Tree.color_build ..) blackFar side sibling with
      ⟨total, rebuilt, fits⟩
    refine Holds.holdsBalanced ⟨?_, storedAfter, nodup⟩ rebuilt ?_
    · rw [rootOf_build]
      exact placed
    · rw [RedBlack.Tree.color_build]
      exact fits

/-- The near child of the sibling is red, and the far child is not. -/
theorem eraseFixBlack_near
    {inner outer : RedBlack.Tree Pointer}
    {tmp2 : Pointer}
    (holds :
      Holds memory
        (⟨side, color, parent,
          .build side .black (.build side .red inner tmp2 outer) sibling
            far⟩ :: path) tree)
    (balanced : Balanced tree height)
    (accepts :
      Path.Accepts
        (⟨side, color, parent,
          .build side .black (.build side .red inner tmp2 outer) sibling
            far⟩ :: path) (height + 1) .black)
    (blackFar : far.color = .black) :
    ∃ after,
      eraseFixBlack side parent sibling memory = .ok (.done, after) ∧
        HoldsBalanced after
          (Path.plug
            (⟨side, color, parent,
              .build side .black (.build side .red inner tmp2 outer)
                sibling far⟩ :: path) tree).names := by
  rcases holds_cons.mp holds with ⟨around, stored, nodup⟩
  dsimp only at around stored nodup
  rw [rootOf_build] at around
  rcases stored_build.mp stored with
    ⟨parentNode, word, toTree, -, inTree, inSibling⟩
  rcases stored_build.mp inSibling with
    ⟨siblingNode, siblingWord, toNear, toFar, inNear, inFar⟩
  rw [rootOf_build] at toNear
  rcases balanced_black.mp accepts.1 with ⟨nearBalanced, farBalanced⟩
  rcases balanced_red.mp nearBalanced with
    ⟨innerBalanced, outerBalanced, blackInner, blackOuter⟩
  have innerSame :
      (RedBlack.Tree.build side .black (.build side .red inner tmp2 outer) sibling
        far).names =
      (RedBlack.Tree.build side .black inner tmp2
        (.build side .black outer sibling far)).names :=
    (RedBlack.Tree.names_rotate side .black .red .black .black inner outer far tmp2
      sibling).symm
  have same :
      (RedBlack.Tree.build side color (.build side .black tree parent inner) tmp2
        (.build side .black outer sibling far)).names =
      (RedBlack.Tree.build side color tree parent
        (.build side .black (.build side .red inner tmp2 outer) sibling
          far)).names :=
    (RedBlack.Tree.names_rotate side color .black color .black tree inner
      (.build side .black outer sibling far) parent tmp2).symm.trans
        (RedBlack.Tree.names_colors side color color parent rfl innerSame.symm)
  have rotatedInner : Rotated [] inner tmp2 outer sibling far :=
    rotated_of_nodup
      (RedBlack.Tree.nodup_names_build.mp (Path.nodup_names_plug.mp nodup).1).2.1
  rw [← Path.names_plug_congr path same] at nodup
  have rotated := rotated_of_nodup nodup
  have outside :
      parent ≠ sibling ∧ parent ∉ outer.names ∧ parent ∉ far.names := by
    have absent := rotated.lowerFar
    rw [RedBlack.Tree.mem_names_build] at absent
    tauto
  have inFarther :
      ∀ name, name ∈ outer.names ∨ name = sibling →
        name ∈ (RedBlack.Tree.build side .black outer sibling far).names := by
    intro name known
    rw [RedBlack.Tree.mem_names_build]
    tauto
  rcases eraseInner_spec parentNode siblingNode siblingWord toFar inFar
      inNear blackOuter rotatedInner rotated.different.symm outside.1
      rotated.lowerMiddle outside.2.1 outside.2.2 with
    ⟨middle, moved, root, parentWord, toTreeSame, toInner, inInner,
      toSibling, inOuter, agrees⟩
  have placedMiddle : Around middle path parent := by
    refine around.frame
      (agrees _ rotated.lowerOutside ?_ rotated.upperOutside ?_) root
    · exact fun there =>
        rotated.farOutside (inFarther _ (Or.inr rfl)) there
    · exact fun name here there =>
        rotated.farOutside (inFarther _ (Or.inl here)) there
  have treeMiddle : Stored middle parent tree := by
    refine inTree.frame
      (agrees _ rotated.lowerNear ?_ rotated.upperNear ?_)
    · exact fun there =>
        rotated.nearFar there (inFarther _ (Or.inr rfl))
    · exact fun name here there =>
        rotated.nearFar there (inFarther _ (Or.inl here))
  have tmp2Node : IsNode tmp2 := (stored_build.mp inNear).1
  have toOuter :
      middle.child side.other tmp2 =
        rootOf (.build side .black outer sibling far) := by
    rw [rootOf_build]
    exact toSibling
  have hasFar : rootOf (.build side .black outer sibling far) ≠ 0 := by
    rw [rootOf_build]
    exact siblingNode.1
  rcases eraseOuter_spec placedMiddle rotated parentNode
      (parentWord.trans word) (toTreeSame.trans toTree) treeMiddle
      tmp2Node toInner inInner toOuter inOuter hasFar with
    ⟨after, turned, placed, storedAfter⟩
  rw [rootOf_build] at turned
  rw [RedBlack.Tree.paint_build] at storedAfter
  refine ⟨after, ?_, ?_⟩
  · refine (bind_of_eq (load_eq siblingNode.1 _)).trans ?_
    rw [toFar]
    refine (bind_of_eq (inFar.isRedIf siblingNode.2)).trans ?_
    rw [blackFar]
    refine (bind_of_eq (load_eq siblingNode.1 _)).trans ?_
    rw [toNear]
    have nearRed := inNear.isRedIf siblingNode.2
    rw [rootOf_build, RedBlack.Tree.color_build] at nearRed
    refine (bind_of_eq nearRed).trans ?_
    exact (bind_of_eq moved).trans (bind_of_eq turned)
  · rw [Path.plug, ← Path.names_plug_congr path same]
    have lowered :
        Balanced (.build side .black tree parent inner) (height + 1) :=
      balanced_black.mpr ⟨balanced, innerBalanced⟩
    have raised :
        Balanced (.build side .black outer sibling far) (height + 1) :=
      balanced_black.mpr ⟨outerBalanced, farBalanced⟩
    rcases accepts.rebuild lowered raised (RedBlack.Tree.color_build ..)
        (RedBlack.Tree.color_build ..) side tmp2 with
      ⟨total, rebuilt, fits⟩
    refine Holds.holdsBalanced ⟨?_, storedAfter, nodup⟩ rebuilt ?_
    · rw [rootOf_build]
      exact placed
    · rw [RedBlack.Tree.color_build]
      exact fits

/-- Both children of the sibling are black, and it is painted red. -/
theorem eraseFixBlack_recolor
    (holds :
      Holds memory
        (⟨side, color, parent, .build side .black near sibling far⟩ ::
          path) tree)
    (blackNear : near.color = .black)
    (blackFar : far.color = .black) :
    ∃ after,
      eraseFixBlack side parent sibling memory =
          .ok
            (if color = .red then .done
              else if parentOf path ≠ 0 then
                .again parent (parentOf path)
              else .done,
              after) ∧
        Holds after path
          (.build side .black tree parent
            (.build side .red near sibling far)) := by
  rcases holds_cons.mp holds with ⟨around, stored, nodup⟩
  dsimp only at around stored nodup
  rw [rootOf_build] at around
  rcases stored_build.mp stored with
    ⟨parentNode, word, toTree, toSibling, inTree, inSibling⟩
  rcases stored_build.mp inSibling with
    ⟨siblingNode, -, toNear, toFar, inNear, inFar⟩
  rw [rootOf_build] at toSibling
  have rotated := holds.rotated
  have distinct := distinct_of_nodup nodup
  let first := memory.setWord sibling (pack parent .red)
  have firstWord :
      first.parentColor parent = pack (parentOf path) color := by
    refine (parentColor_setWord _ _).trans ((if_neg ?_).trans word)
    exact rotated.different.symm
  have inFirst :
      Stored first parent (.build side .red near sibling far) := by
    refine stored_build.mpr ⟨siblingNode, ?_, toNear, toFar,
      inNear.frame (agrees_setWord rotated.upperMiddle _),
      inFar.frame (agrees_setWord rotated.upperFar _)⟩
    exact (parentColor_setWord _ _).trans (if_pos rfl)
  have treeFirst : Stored first parent tree :=
    inTree.frame (agrees_setWord rotated.upperNear _)
  have aroundFirst : Around first path parent :=
    around.frame (agrees_setWord rotated.upperOutside _) rfl
  have same :
      (RedBlack.Tree.build side .black tree parent
        (.build side .red near sibling far)).names =
      (RedBlack.Tree.build side color tree parent
        (.build side .black near sibling far)).names :=
    RedBlack.Tree.names_colors _ _ _ _ rfl (RedBlack.Tree.names_colors _ _ _ _ rfl rfl)
  rw [← Path.names_plug_congr path same] at nodup
  have starts :
      ∀ {result},
        (do
          if ← rbIsRed parent first then
            return (Turn.done, ← rbSetBlack parent first)
          else
            let above ← rbParent parent first
            if above ≠ 0 then
              return (.again parent above, first)
            else
              return (.done, first)) = result →
          eraseFixBlack side parent sibling memory = result := by
    intro result rest
    refine (bind_of_eq (load_eq siblingNode.1 _)).trans ?_
    rw [toFar]
    refine (bind_of_eq (inFar.isRedIf siblingNode.2)).trans ?_
    rw [blackFar]
    refine (bind_of_eq (load_eq siblingNode.1 _)).trans ?_
    rw [toNear]
    refine (bind_of_eq (inNear.isRedIf siblingNode.2)).trans ?_
    rw [blackNear]
    exact (bind_of_eq (storeWord_eq siblingNode.1 _)).trans rest
  have redEq :
      rbIsRed parent first = .ok (decide (color = .red)) := by
    refine (bind_of_eq (loadWord_eq parentNode.1)).trans ?_
    rw [firstWord]
    change Except.ok (!wordIsBlack _) = _
    rw [wordIsBlack_pack around.aligned]
    cases color <;> rfl
  cases color with
  | red =>
      let second := first.setWord parent (pack (parentOf path) .black)
      refine ⟨second, starts ?_, ⟨?_, ?_, nodup⟩⟩
      · refine (bind_of_eq redEq).trans ?_
        have blackened : rbSetBlack parent first = .ok second := by
          refine (bind_of_eq (loadWord_eq parentNode.1)).trans ?_
          rw [firstWord, pack_or_black]
          exact storeWord_eq parentNode.1 _
        exact bind_of_eq blackened
      · rw [rootOf_build]
        exact aroundFirst.frame (agrees_setWord distinct.outside _) rfl
      · refine stored_build.mpr ⟨parentNode, ?_, toTree, ?_,
          treeFirst.frame (agrees_setWord distinct.notNear _),
          inFirst.frame (agrees_setWord ?_ _)⟩
        · exact (parentColor_setWord _ _).trans (if_pos rfl)
        · rw [rootOf_build]
          exact toSibling
        · intro there
          apply distinct.notFar
          rw [RedBlack.Tree.mem_names_build] at there ⊢
          exact there
  | black =>
      refine ⟨first, starts ?_, ⟨?_, ?_, nodup⟩⟩
      · refine (bind_of_eq redEq).trans ?_
        have aboveEq : rbParent parent first = .ok (parentOf path) := by
          refine (bind_of_eq (loadWord_eq parentNode.1)).trans ?_
          rw [firstWord, wordParent_pack around.aligned]
          rfl
        refine (bind_of_eq aboveEq).trans ?_
        by_cases top : parentOf path ≠ 0
        · simp only [if_pos top]
          rfl
        · simp only [if_neg top]
          rfl
      · rw [rootOf_build]
        exact aroundFirst
      · refine stored_build.mpr
          ⟨parentNode, firstWord, toTree, ?_, treeFirst, inFirst⟩
        rw [rootOf_build]
        exact toSibling

/-- An iteration is the last one, or the hole is one node higher. -/
def Raised
    (path : Path Pointer)
    (height : Nat)
    (names : List Pointer)
    (result : Except Fault (Turn × Memory)) : Prop :=
  (∃ after, result = .ok (.done, after) ∧ HoldsBalanced after names) ∨
    ∃ after next frame rest,
      path = frame :: rest ∧
        result = .ok (.again (rootOf next) frame.name, after) ∧
        Holds after path next ∧ Balanced next height ∧
        Path.Accepts path (height + 1) .black ∧
        (path.plug next).names = names

/-- Cases 2, 3 and 4. -/
theorem eraseFixBlack_spec
    (holds :
      Holds memory
        (⟨side, color, parent, .build side .black near sibling far⟩ ::
          path) tree)
    (balanced : Balanced tree height)
    (accepts :
      Path.Accepts
        (⟨side, color, parent, .build side .black near sibling far⟩ ::
          path) (height + 1) .black) :
    (color = .red →
      ∃ after,
        eraseFixBlack side parent sibling memory = .ok (.done, after) ∧
          HoldsBalanced after
            (Path.plug
              (⟨side, color, parent,
                .build side .black near sibling far⟩ :: path)
              tree).names) ∧
    Raised path (height + 1)
      (Path.plug
        (⟨side, color, parent, .build side .black near sibling far⟩ ::
          path) tree).names
      (eraseFixBlack side parent sibling memory) := by
  cases farColor : far.color with
  | red =>
      have done := eraseFixBlack_far holds balanced accepts farColor
      exact ⟨fun _ => done, Or.inl done⟩
  | black =>
      cases nearColor : near.color with
      | red =>
          have nonempty : near ≠ .nil := by
            rintro rfl
            cases nearColor
          rcases RedBlack.Tree.exists_build side nonempty with
            ⟨painted, inner, tmp2, outer, rfl⟩
          rw [RedBlack.Tree.color_build] at nearColor
          subst nearColor
          have done := eraseFixBlack_near holds balanced accepts farColor
          exact ⟨fun _ => done, Or.inl done⟩
      | black =>
          rcases balanced_black.mp accepts.1 with
            ⟨nearBalanced, farBalanced⟩
          rcases eraseFixBlack_recolor holds nearColor farColor with
            ⟨after, turned, held⟩
          have names :
              (path.plug
                (.build side .black tree parent
                  (.build side .red near sibling far))).names =
              (Path.plug
                (⟨side, color, parent,
                  .build side .black near sibling far⟩ :: path)
                tree).names :=
            Path.names_plug_congr path
              (RedBlack.Tree.names_colors _ _ _ _ rfl
                (RedBlack.Tree.names_colors _ _ _ _ rfl rfl))
          have next :
              Balanced
                (.build side .black tree parent
                  (.build side .red near sibling far)) (height + 1) :=
            balanced_black.mpr ⟨balanced, balanced_red.mpr
              ⟨nearBalanced, farBalanced, nearColor, farColor⟩⟩
          cases color with
          | red =>
              have fits : Path.Accepts path (height + 1) .black :=
                accepts.2.2.2.black
              have done := held.holdsBalanced next
                (by rw [RedBlack.Tree.color_build]; exact fits)
              rw [names] at done
              exact ⟨fun _ => ⟨after, turned, done⟩,
                Or.inl ⟨after, turned, done⟩⟩
          | black =>
              refine ⟨fun impossible => (nomatch impossible), ?_⟩
              cases path with
              | nil =>
                  have done := held.holdsBalanced next
                    (RedBlack.Tree.color_build ..)
                  rw [names] at done
                  exact Or.inl ⟨after, turned, done⟩
              | cons frame rest =>
                  have frameNode : frame.name ≠ 0 := held.around.1.1
                  rw [parentOf, if_neg (by decide),
                    if_pos frameNode] at turned
                  refine Or.inr ⟨after, _, frame, rest, rfl, ?_, held,
                    next, accepts.2, names⟩
                  rw [rootOf_build]
                  exact turned

theorem eraseFixOn_spec
    {siblingTree : RedBlack.Tree Pointer}
    (holds :
      Holds memory (⟨side, color, parent, siblingTree⟩ :: path) tree)
    (balanced : Balanced tree height)
    (accepts :
      Path.Accepts (⟨side, color, parent, siblingTree⟩ :: path)
        (height + 1) .black) :
    Raised path (height + 1)
      (Path.plug (⟨side, color, parent, siblingTree⟩ :: path) tree).names
      (eraseFixOn side parent memory) := by
  rcases holds.around with ⟨parentNode, -, -, toSibling, inSibling, -⟩
  rcases RedBlack.Tree.exists_build side accepts.1.ne_nil with
    ⟨siblingColor, near, sibling, far, rfl⟩
  dsimp only at parentNode toSibling inSibling
  rw [rootOf_build] at toSibling
  rcases stored_build.mp inSibling with ⟨siblingNode, siblingWord, -⟩
  have redEq :
      rbIsRed sibling memory = .ok (decide (siblingColor = .red)) := by
    refine (bind_of_eq (loadWord_eq siblingNode.1)).trans ?_
    rw [siblingWord]
    change Except.ok (!wordIsBlack _) = _
    rw [wordIsBlack_pack parentNode.2]
    cases siblingColor <;> rfl
  cases siblingColor with
  | black =>
      have goes :
          eraseFixOn side parent memory =
            eraseFixBlack side parent sibling memory := by
        refine (bind_of_eq (load_eq parentNode.1 _)).trans ?_
        rw [toSibling]
        exact bind_of_eq redEq
      rw [goes]
      exact (eraseFixBlack_spec holds balanced accepts).2
  | red =>
      -- A red sibling has a black parent, and black children.
      have isBlack : color = .black := by
        cases color with
        | black => rfl
        | red =>
            have impossible := accepts.2.2.1
            rw [RedBlack.Tree.color_build] at impossible
            cases impossible
      subst isBlack
      rcases balanced_red.mp accepts.1 with
        ⟨nearBalanced, farBalanced, blackNear, blackFar⟩
      rcases holds_cons.mp holds with ⟨around, stored, nodup⟩
      dsimp only at around stored nodup
      rw [rootOf_build] at around
      rcases stored_build.mp (stored_build.mp stored).2.2.2.2.2 with
        ⟨-, -, -, -, inNear, -⟩
      rcases RedBlack.Tree.exists_build side nearBalanced.ne_nil with
        ⟨nearColor, inner, top, outer, rfl⟩
      rw [RedBlack.Tree.color_build] at blackNear
      subst blackNear
      have hasNear : rootOf (.build side .black inner top outer) ≠ 0 := by
        rw [rootOf_build]
        exact (stored_build.mp inNear).1.1
      rcases eraseRotate_spec around stored holds.rotated hasNear
          (RedBlack.Tree.color_build ..) with
        ⟨middle, rotated, placed, storedMiddle⟩
      have names :
          (RedBlack.Tree.build side .black
            (.build side .red tree parent
              (.build side .black inner top outer)) sibling far).names =
          (RedBlack.Tree.build side .black tree parent
            (.build side .red (.build side .black inner top outer) sibling
              far)).names :=
        (RedBlack.Tree.names_rotate side .black .red .black .red tree
          (.build side .black inner top outer) far parent sibling).symm
      rw [← Path.names_plug_congr path names] at nodup
      have held :
          Holds middle
            (⟨side, .red, parent, .build side .black inner top outer⟩ ::
              ⟨side, .black, sibling, far⟩ :: path) tree := by
        refine holds_cons.mpr (holds_cons.mpr ⟨?_, storedMiddle, nodup⟩)
        rw [rootOf_build]
        exact placed
      have fits :
          Path.Accepts
            (⟨side, .red, parent, .build side .black inner top outer⟩ ::
              ⟨side, .black, sibling, far⟩ :: path) (height + 1)
            .black :=
        ⟨nearBalanced, rfl, RedBlack.Tree.color_build .., farBalanced, accepts.2⟩
      rcases (eraseFixBlack_spec held balanced fits).1 rfl with
        ⟨after, turned, done⟩
      refine Or.inl ⟨after, ?_, ?_⟩
      · refine (bind_of_eq (load_eq parentNode.1 _)).trans ?_
        rw [toSibling]
        refine (bind_of_eq redEq).trans ?_
        refine (bind_of_eq rotated).trans ?_
        rw [rootOf_build]
        exact turned
      · have same :
            (Path.plug
              (⟨side, .red, parent, .build side .black inner top outer⟩ ::
                ⟨side, .black, sibling, far⟩ :: path) tree).names =
            (Path.plug
              (⟨side, .black, parent,
                .build side .red (.build side .black inner top outer)
                  sibling far⟩ :: path) tree).names :=
          Path.names_plug_congr path names
        rw [← same]
        exact done

/-- The loop makes up for the black which the hole is short of. -/
theorem rbEraseFix_spec
    (fuel : Nat)
    {frame : Frame Pointer}
    (holds : Holds memory (frame :: path) tree)
    (balanced : Balanced tree height)
    (accepts : Path.Accepts (frame :: path) (height + 1) .black) :
    match rbEraseFix fuel (rootOf tree) frame.name memory with
    | .ok after =>
        HoldsBalanced after (Path.plug (frame :: path) tree).names
    | .error fault => fault = .unfinished ∧ fuel ≤ path.length := by
  induction fuel generalizing memory path tree height frame with
  | zero => exact ⟨rfl, Nat.zero_le _⟩
  | succ fuel ih =>
      rcases holds.around with ⟨parentNode, -, -, -, inSibling, -⟩
      have hasSibling : rootOf frame.sibling ≠ 0 :=
        inSibling.rootOf_ne_zero accepts.1.ne_nil
      have sideEq := holds.side_eq (Or.inr hasSibling)
      have turns :
          ∀ {turned : Turn × Memory},
            eraseFixOn frame.side frame.name memory = .ok turned →
              (∀ after, turned = (.done, after) →
                rbEraseFix (fuel + 1) (rootOf tree) frame.name memory =
                  .ok after) ∧
              ∀ node above after, turned = (.again node above, after) →
                rbEraseFix (fuel + 1) (rootOf tree) frame.name memory =
                  rbEraseFix fuel node above after := by
        intro turned ran
        rw [rbEraseFix]
        constructor
        · rintro after rfl
          refine (bind_of_eq (load_eq parentNode.1 _)).trans ?_
          rw [sideEq]
          exact bind_of_eq ran
        · rintro node above after rfl
          refine (bind_of_eq (load_eq parentNode.1 _)).trans ?_
          rw [sideEq]
          exact bind_of_eq ran
      rcases eraseFixOn_spec holds balanced accepts with
        ⟨after, turned, done⟩ |
          ⟨after, next, upper, rest, rfl, turned, held, nextBalanced,
            fits, names⟩
      · rw [(turns turned).1 after rfl]
        exact done
      · rw [(turns turned).2 _ _ after rfl]
        have onward := ih held nextBalanced fits
        rw [names] at onward
        revert onward
        cases rbEraseFix fuel (rootOf next) upper.name after with
        | ok final => exact fun done => done
        | error fault =>
            rintro ⟨unfinished, short⟩
            refine ⟨unfinished, ?_⟩
            rw [List.length_cons]
            omega

end Loop

/-! ## A node with two children -/

section Replace

variable
    {memory after : Memory}
    {path inner : Path Pointer}
    {base hole : Pointer}

/-- The top of a path which does not reach the root. -/
def topOf : Path Pointer → Pointer → Pointer
  | [], hole => hole
  | frame :: rest, _ => topOf rest frame.name

/-- The node around the hole, or the one under which the path hangs. -/
def parentOr (base : Pointer) : Path Pointer → Pointer
  | [] => base
  | frame :: _ => frame.name

/-- The memory holds a path which hangs under a node. -/
def Chain (memory : Memory) (base : Pointer) :
    Path Pointer → Pointer → Prop
  | [], _ => True
  | frame :: rest, hole =>
      IsNode frame.name ∧
        memory.parentColor frame.name =
          pack (parentOr base rest) frame.color ∧
        memory.child frame.side frame.name = hole ∧
        memory.child frame.side.other frame.name =
          rootOf frame.sibling ∧
        Stored memory frame.name frame.sibling ∧
        Chain memory base rest frame.name

theorem parentOf_append
    (inner outer : Path Pointer) :
    parentOf (inner ++ outer) = parentOr (parentOf outer) inner := by
  cases inner <;> rfl

theorem topOf_append
    (inner : Path Pointer)
    (last : Frame Pointer)
    (hole : Pointer) :
    topOf (inner ++ [last]) hole = last.name := by
  induction inner generalizing hole with
  | nil => rfl
  | cons frame rest ih => exact ih frame.name

/-- The first frame of a path which has a last one. -/
theorem exists_first
    (inner : Path Pointer)
    (last : Frame Pointer) :
    ∃ first rest,
      inner ++ [last] = first :: rest ∧
        ∀ base, last.name = base → parentOr base inner = first.name := by
  cases inner with
  | nil => exact ⟨last, [], rfl, fun base same => same.symm⟩
  | cons frame others => exact ⟨frame, others ++ [last], rfl, fun _ _ => rfl⟩

theorem around_append
    {outer : Path Pointer} :
    Around memory (inner ++ outer) hole ↔
      Chain memory (parentOf outer) inner hole ∧
        Around memory outer (topOf inner hole) := by
  induction inner generalizing hole with
  | nil => simp [Chain, topOf]
  | cons frame rest ih =>
      simp only [List.cons_append, Around, Chain, topOf, ih,
        parentOf_append]
      tauto

theorem Chain.frame
    (chain : Chain memory base inner hole)
    (agrees : Agrees (Path.names inner) memory after) :
    Chain after base inner hole := by
  induction inner generalizing hole with
  | nil => trivial
  | cons frame rest ih =>
      rcases chain with ⟨isNode, word, toHole, toSibling, sibling, above⟩
      have here := agrees frame.name (by simp [Path.names])
      refine ⟨isNode, here.1.trans word,
        (here.2 _).trans toHole, (here.2 _).trans toSibling,
        sibling.frame ?_, ih above ?_⟩
      · intro name member
        exact agrees name (by simp [Path.names, member])
      · intro name member
        apply agrees name
        simp only [Path.names, List.flatMap_cons, List.mem_append]
        exact Or.inr member

/-- Another subtree goes into the hole. -/
theorem Chain.refill
    {frame : Frame Pointer}
    (chain : Chain memory base (frame :: inner) hole)
    (nodup : (Path.names (frame :: inner)).Nodup)
    (new : Pointer) :
    Chain (memory.setChild frame.side frame.name new) base
      (frame :: inner) new := by
  rcases chain with ⟨isNode, word, -, toSibling, sibling, above⟩
  simp only [Path.names, List.flatMap_cons, List.cons_append,
    List.nodup_cons, List.mem_append, not_or] at nodup
  refine ⟨isNode, word, ?_, ?_, ?_, ?_⟩
  · rw [child_setChild, if_pos ⟨rfl, rfl⟩]
  · rw [child_setChild, if_neg]
    · exact toSibling
    · exact fun both => frame.side.other_ne both.1
  · exact sibling.frame (agrees_setChild nodup.1.1 _ _)
  · exact above.frame (agrees_setChild nodup.1.2 _ _)

/-- The path is hung under another node. -/
theorem Chain.rebase
    {frame : Frame Pointer}
    (chain : Chain memory base (frame :: inner) hole)
    (nodup : (Path.names (frame :: inner)).Nodup)
    (aligned : base &&& 7 = 0)
    (below : Pointer) :
    ∃ after,
      rbSetParent (topOf (frame :: inner) hole) below memory =
          .ok after ∧
        Chain after below (frame :: inner) hole ∧
        after.root = memory.root ∧ after.child = memory.child ∧
        ∀ name, name ∉ Path.names (frame :: inner) →
          after.parentColor name = memory.parentColor name := by
  induction inner generalizing frame hole with
  | nil =>
      rcases chain with ⟨isNode, word, toHole, toSibling, sibling, -⟩
      simp only [Path.names, List.flatMap_cons, List.flatMap_nil,
        List.append_nil, List.nodup_cons] at nodup
      refine ⟨memory.setWord frame.name (pack below frame.color), ?_,
        ⟨isNode, ?_, toHole, toSibling, ?_, trivial⟩, rfl, rfl, ?_⟩
      · refine (bind_of_eq (loadWord_eq isNode.1)).trans ?_
        rw [word]
        change memory.storeWord frame.name
          (pack base frame.color &&& 1 ||| below) = _
        rw [pack_and_one aligned, BitVec.or_comm]
        exact storeWord_eq isNode.1 _
      · exact (parentColor_setWord _ _).trans (if_pos rfl)
      · exact sibling.frame (agrees_setWord nodup.1 _)
      · intro name outside
        refine (parentColor_setWord _ _).trans (if_neg ?_)
        rintro rfl
        exact outside (by simp [Path.names])
  | cons upper rest ih =>
      rcases chain with ⟨isNode, word, toHole, toSibling, sibling, above⟩
      have parts := nodup
      simp only [Path.names, List.flatMap_cons, List.cons_append,
        List.nodup_cons, List.nodup_append', List.mem_append,
        List.mem_cons, not_or] at parts
      rcases parts with
        ⟨⟨notSibling, notUpper, notUpperSibling, notRest⟩, siblingNodup,
          upperNodup, apart⟩
      have restNodup : (Path.names (upper :: rest)).Nodup := by
        simp only [Path.names, List.flatMap_cons, List.cons_append,
          List.nodup_cons, List.nodup_append', List.mem_append, not_or]
        exact upperNodup
      have outside : frame.name ∉ Path.names (upper :: rest) := by
        simp only [Path.names, List.flatMap_cons, List.cons_append,
          List.mem_cons, List.mem_append, not_or]
        exact ⟨notUpper, notUpperSibling, notRest⟩
      have siblingApart :
          frame.sibling.names.Disjoint (Path.names (upper :: rest)) := by
        simp only [Path.names, List.flatMap_cons, List.cons_append]
        exact apart
      rcases ih above restNodup with
        ⟨after, changed, chained, root, children, words⟩
      refine ⟨after, changed,
        ⟨isNode, (words _ outside).trans word, ?_, ?_, ?_, chained⟩,
        root, children, ?_⟩
      · rw [children]
        exact toHole
      · rw [children]
        exact toSibling
      · refine sibling.frame fun name member => ⟨?_, fun side => ?_⟩
        · exact words name fun there => siblingApart member there
        · rw [children]
      · intro name notThere
        apply words
        intro there
        apply notThere
        simp only [Path.names, List.flatMap_cons, List.mem_append] at there ⊢
        exact Or.inr there

/-- The names around a node with two children, and its successor. -/
structure Replaceable
    (path : Path Pointer)
    (node : Pointer)
    (left : RedBlack.Tree Pointer)
    (inner : Path Pointer)
    (successor : Pointer)
    (rest : RedBlack.Tree Pointer) : Prop where
  pathNodup : (Path.names path).Nodup
  innerNodup : (Path.names inner).Nodup
  leftNodup : left.names.Nodup
  restNodup : rest.names.Nodup
  different : node ≠ successor
  nodePath : node ∉ Path.names path
  nodeInner : node ∉ Path.names inner
  nodeLeft : node ∉ left.names
  nodeRest : node ∉ rest.names
  successorPath : successor ∉ Path.names path
  successorInner : successor ∉ Path.names inner
  successorLeft : successor ∉ left.names
  successorRest : successor ∉ rest.names
  leftPath : left.names.Disjoint (Path.names path)
  leftInner : left.names.Disjoint (Path.names inner)
  leftRest : left.names.Disjoint rest.names
  restPath : rest.names.Disjoint (Path.names path)
  restInner : rest.names.Disjoint (Path.names inner)
  innerPath : (Path.names inner).Disjoint (Path.names path)

theorem replaceable_of_nodup
    {color lower : Color}
    {left rest : RedBlack.Tree Pointer}
    {node successor : Pointer}
    (nodup :
      (path.plug
        (.node color left node
          (inner.plug (.node lower .nil successor rest)))).names.Nodup) :
    Replaceable path node left inner successor rest := by
  have outer : Distinct path left node
      (inner.plug (.node lower .nil successor rest)) :=
    distinct_of_nodup
      (show (path.plug (.build .left color left node
        (inner.plug (.node lower .nil successor rest)))).names.Nodup
        from nodup)
  have inside : Distinct inner .nil successor rest :=
    distinct_of_nodup
      (show (inner.plug (.build .left lower .nil successor
        rest)).names.Nodup from outer.farNodup)
  have inRight :
      ∀ name,
        name ∈ Path.names inner ∨ name = successor ∨
            name ∈ rest.names →
          name ∈ (inner.plug (.node lower .nil successor rest)).names := by
    intro name known
    rw [Path.mem_names_plug]
    simpa [RedBlack.Tree.names] using known
  constructor
  · exact outer.pathNodup
  · exact inside.pathNodup
  · exact outer.nearNodup
  · exact inside.farNodup
  · rintro rfl
    exact outer.notFar (inRight _ (Or.inr (Or.inl rfl)))
  · exact outer.outside
  · exact fun there => outer.notFar (inRight _ (Or.inl there))
  · exact outer.notNear
  · exact fun there => outer.notFar (inRight _ (Or.inr (Or.inr there)))
  · exact fun there =>
      outer.farOutside (inRight _ (Or.inr (Or.inl rfl))) there
  · exact inside.outside
  · exact fun there =>
      outer.apart there (inRight _ (Or.inr (Or.inl rfl)))
  · exact inside.notFar
  · exact outer.nearOutside
  · exact fun name here there =>
      outer.apart here (inRight _ (Or.inl there))
  · exact fun name here there =>
      outer.apart here (inRight _ (Or.inr (Or.inr there)))
  · exact fun name here there =>
      outer.farOutside (inRight _ (Or.inr (Or.inr here))) there
  · exact inside.farOutside
  · exact fun name here there =>
      outer.farOutside (inRight _ (Or.inl here)) there

/-- The successor takes the links of the node, and its colour. -/
theorem eraseReplace_spec
    {color lower : Color}
    {left rest : RedBlack.Tree Pointer}
    {node successor above : Pointer}
    (names : Replaceable path node left inner successor rest)
    (around : Around memory path node)
    (nodeNode : IsNode node)
    (word : memory.parentColor node = pack (parentOf path) color)
    (toLeft : memory.child .left node = rootOf left)
    (inLeft : Stored memory node left)
    (hasLeft : rootOf left ≠ 0)
    (successorNode : IsNode successor)
    (successorColor :
      wordIsBlack (memory.parentColor successor) =
        decide (lower = .black))
    (inRest : Stored memory above rest)
    (parent : Pointer) :
    ∃ after,
      eraseReplace node parent successor (rootOf rest) memory =
          .ok
            (if rootOf rest ≠ 0 then 0
              else if lower = .black then parent else 0,
              after) ∧
        Around after path successor ∧
        after.parentColor successor = pack (parentOf path) color ∧
        after.child .left successor = rootOf left ∧
        after.child .right successor = memory.child .right successor ∧
        Stored after successor left ∧
        Stored after parent (rest.paint .black) ∧
        ∀ others, successor ∉ others → left.names.Disjoint others →
          rest.names.Disjoint others →
          others.Disjoint (Path.names path) →
            Agrees others memory after := by
  let first := memory.setChild .left successor (rootOf left)
  let second := rehang left successor left.color first
  have secondAgrees :
      ∀ others, successor ∉ others → left.names.Disjoint others →
        Agrees others memory second :=
    fun others notSuccessor apart =>
      (agrees_setChild notSuccessor _ _).trans (agrees_rehang apart _)
  have placedSecond : Around second path node := by
    refine around.frame
      (secondAgrees _ names.successorPath names.leftPath) ?_
    exact root_rehang _
  have atNode := secondAgrees [node]
    (by simpa using names.different.symm) (by simpa using names.nodeLeft)
  have nodeSame := atNode node (List.mem_singleton_self _)
  rcases placedSecond.changeChild nodeNode.1 names.nodePath
      names.pathNodup successor with
    ⟨third, changed, placedThird, words, children⟩
  let fourth := third.setWord successor (pack (parentOf path) color)
  let fifth := rehang rest parent .black fourth
  have fourthAgrees :
      ∀ others, successor ∉ others →
        others.Disjoint (Path.names path) →
          Agrees others second fourth := by
    intro others notSuccessor apart
    have unchanged : Agrees others second third := by
      intro name member
      refine ⟨by rw [words], fun side => ?_⟩
      exact children side name fun there => apart member there
    exact unchanged.trans (agrees_setWord notSuccessor _)
  have leftSecond : Stored second successor left := by
    have hung :=
      (inLeft.frame (agrees_setChild names.successorLeft .left
        (rootOf left))).rehang names.leftNodup successor left.color
    rw [RedBlack.Tree.paint_color rfl] at hung
    exact hung
  have restFourth : Stored fourth above rest := by
    refine (inRest.frame (secondAgrees _ names.successorRest
      names.leftRest)).frame
        (fourthAgrees _ names.successorRest names.restPath)
  have runs :
      eraseReplace node parent successor (rootOf rest) memory =
        .ok
          (if rootOf rest ≠ 0 then 0
            else if lower = .black then parent else 0,
            fifth) := by
    have kept : Stored first node left :=
      inLeft.frame (agrees_setChild names.successorLeft _ _)
    have hung : rbSetParent (rootOf left) successor first = .ok second := by
      have whole := setParentIf_eq successor kept nodeNode.2
      unfold rbSetParentIf at whole
      rw [if_pos hasLeft] at whole
      exact whole
    have wordEq :
        second.parentColor node = pack (parentOf path) color :=
      nodeSame.1.trans word
    have successorEq :
        third.parentColor successor = memory.parentColor successor := by
      rw [words]
      exact parentColor_rehang names.successorLeft _
    refine (bind_of_eq (load_eq nodeNode.1 _)).trans ?_
    rw [toLeft]
    refine (bind_of_eq (store_eq successorNode.1 _ _)).trans ?_
    refine (bind_of_eq hung).trans ?_
    refine (bind_of_eq (loadWord_eq nodeNode.1)).trans ?_
    rw [wordEq, wordParent_pack around.aligned]
    refine (bind_of_eq changed).trans ?_
    by_cases nonnull : rootOf rest ≠ 0
    · rw [if_pos nonnull, if_pos nonnull]
      refine (bind_of_eq (storeWord_eq successorNode.1 _)).trans ?_
      have painted :
          rbSetParentColor (rootOf rest) parent .black fourth =
            .ok fifth := by
        simp only [fifth, rehang, if_pos nonnull]
        exact storeWord_eq nonnull _
      exact bind_of_eq painted
    · rw [if_neg nonnull, if_neg nonnull]
      refine (bind_of_eq (loadWord_eq successorNode.1)).trans ?_
      refine (bind_of_eq (storeWord_eq successorNode.1 _)).trans ?_
      have unchanged : fifth = fourth := by
        simp only [fifth, rehang, if_neg nonnull]
      rw [successorEq, successorColor, unchanged]
      cases lower <;> rfl
  refine ⟨fifth, runs, ?_, ?_, ?_, ?_, ?_, ?_, ?_⟩
  · refine (placedThird.frame
      (agrees_setWord names.successorPath _) rfl).frame
        (agrees_rehang names.restPath _) ?_
    exact root_rehang _
  · refine (parentColor_rehang names.successorRest _).trans ?_
    exact (parentColor_setWord _ _).trans (if_pos rfl)
  · rw [child_rehang]
    change third.child .left successor = _
    rw [children _ _ names.successorPath]
    simp [first, second, child_setChild]
  · rw [child_rehang]
    change third.child .right successor = _
    rw [children _ _ names.successorPath]
    simp [first, second, child_setChild]
  · refine (leftSecond.frame (fourthAgrees _ names.successorLeft
      names.leftPath)).frame (agrees_rehang ?_ _)
    exact fun name here there => names.leftRest there here
  · exact restFourth.rehang names.restNodup parent .black
  · intro others notSuccessor leftApart restApart pathApart
    exact ((secondAgrees _ notSuccessor leftApart).trans
      (fourthAgrees _ notSuccessor pathApart)).trans
        (agrees_rehang restApart _)

/-- What `__rb_erase` gives: a whole tree, or where it is to be fixed. -/
def Detached
    (names : List Pointer)
    (limit : Nat)
    (rebalance : Pointer)
    (after : Memory) : Prop :=
  (rebalance = 0 ∧ HoldsBalanced after names) ∨
    ∃ frame rest,
      rebalance = frame.name ∧ frame.name ≠ 0 ∧
        Holds after (frame :: rest) .nil ∧
        Path.Accepts (frame :: rest) 1 .black ∧
        (frame :: rest).length ≤ limit ∧
        (Path.plug (frame :: rest) .nil).names = names

/-- The only child of a node takes its place, or nothing does. -/
theorem detached
    {side : Side}
    {lower : Color}
    {rest : RedBlack.Tree Pointer}
    {gone : Pointer}
    {height : Nat}
    (holds : Holds memory path (rest.paint .black))
    (balanced : Balanced (.build side lower .nil gone rest) height)
    (accepts : Path.Accepts path height lower)
    {limit : Nat}
    (short : path.length ≤ limit) :
    Detached (path.plug (rest.paint .black)).names limit
      (if rootOf rest ≠ 0 then 0
        else if lower = .black then parentOf path else 0) memory := by
  by_cases empty : rest = .nil
  · subst empty
    cases lower with
    | red =>
        rcases balanced_red.mp balanced with ⟨flat, -, -, -⟩
        exact Or.inl ⟨rfl, holds.holdsBalanced flat accepts.black⟩
    | black =>
        cases path with
        | nil => exact Or.inl ⟨rfl, holds.holdsBalanced .nil rfl⟩
        | cons frame above =>
            have high : height = 1 := by
              cases height with
              | zero => exact absurd balanced not_balanced_black_zero
              | succ lower =>
                  rcases balanced_black.mp balanced with ⟨flat, -⟩
                  cases flat
                  rfl
            subst high
            exact Or.inr
              ⟨frame, above, rfl, holds.around.1.1, holds, accepts, short,
                rfl⟩
  · rcases balanced.only_child empty with ⟨rfl, rfl, red, flat⟩
    have nonnull : rootOf rest ≠ 0 := by
      rw [← rootOf_paint .black]
      apply holds.stored.rootOf_ne_zero
      cases rest with
      | nil => exact absurd rfl empty
      | node color near name far => simp [RedBlack.Tree.paint]
    rw [if_pos nonnull]
    refine Or.inl ⟨rfl, holds.holdsBalanced (flat.blacken red) ?_⟩
    cases rest with
    | nil => exact absurd rfl empty
    | node color near name far => exact accepts

/-- The loop of `__rb_erase` comes to the first node of a subtree. -/
theorem successorLoop_spec
    {tree : RedBlack.Tree Pointer}
    (nonempty : tree ≠ .nil)
    {above : Pointer}
    (stored : Stored memory above tree) :
    ∃ (inner : Path Pointer) (lower : Color) (successor : Pointer)
      (rest : RedBlack.Tree Pointer),
      tree = inner.plug (.node lower .nil successor rest) ∧
        (∀ frame ∈ inner, frame.side = .left) ∧
        ∀ fuel parent,
          match
            successorLoop fuel parent (rootOf tree) memory with
          | .ok found => found = (parentOr parent inner, successor)
          | .error fault => fault = .unfinished ∧ fuel ≤ tree.depth := by
  induction tree generalizing above with
  | nil => exact absurd rfl nonempty
  | node color left name right leftIh =>
      rcases stored with ⟨isNode, -, toLeft, -, inLeft, -⟩
      by_cases empty : left = .nil
      · subst empty
        refine ⟨[], color, name, right, rfl, ?_, ?_⟩
        · exact fun frame member => absurd member List.not_mem_nil
        · intro fuel parent
          cases fuel with
          | zero => exact ⟨rfl, Nat.zero_le _⟩
          | succ fuel =>
              have stops :
                  successorLoop (fuel + 1) parent name memory =
                    .ok (parent, name) := by
                rw [successorLoop]
                refine (bind_of_eq (load_eq isNode.1 _)).trans ?_
                rw [toLeft]
                rfl
              rw [rootOf, stops]
              rfl
      · rcases leftIh empty inLeft with
          ⟨inner, lower, successor, rest, rfl, sides, finds⟩
        refine ⟨inner ++ [⟨.left, color, name, right⟩], lower, successor,
          rest, ?_, ?_, ?_⟩
        · rw [Path.plug_append]
          rfl
        · intro frame member
          rcases List.mem_append.mp member with early | last
          · exact sides frame early
          · rw [List.mem_singleton.mp last]
        · intro fuel parent
          have nonnull :
              rootOf (inner.plug (.node lower .nil successor rest)) ≠ 0 :=
            inLeft.rootOf_ne_zero empty
          have same :
              parentOr parent (inner ++ [⟨.left, color, name, right⟩]) =
                parentOr name inner := by
            cases inner <;> rfl
          cases fuel with
          | zero => exact ⟨rfl, Nat.zero_le _⟩
          | succ fuel =>
              have goes :
                  successorLoop (fuel + 1) parent name memory =
                    successorLoop fuel name
                      (rootOf
                        (inner.plug (.node lower .nil successor rest)))
                      memory := by
                rw [successorLoop]
                refine (bind_of_eq (load_eq isNode.1 _)).trans ?_
                rw [toLeft, if_pos nonnull]
              have found := finds fuel name
              rw [rootOf, goes, same]
              revert found
              cases successorLoop fuel name
                  (rootOf (inner.plug (.node lower .nil successor rest)))
                  memory with
              | ok pair => exact fun found => found
              | error fault =>
                  rintro ⟨unfinished, short⟩
                  refine ⟨unfinished, ?_⟩
                  simp only [RedBlack.Tree.depth]
                  omega

end Replace

section EraseNode

variable
    {memory : Memory}
    {path : Path Pointer}
    {color : Color}
    {left right : RedBlack.Tree Pointer}
    {node : Pointer}
    {height : Nat}

/-- The names without the one in the middle. -/
theorem erase_middle
    {before after : List Pointer}
    (outside : node ∉ before) :
    (before ++ node :: after).erase node = before ++ after := by
  rw [List.erase_append_right _ outside, List.erase_cons_head]

/-- The names once the successor stands where the node was. -/
theorem names_replaced
    {inner : Path Pointer}
    {lower : Color}
    {successor : Pointer}
    {rest : RedBlack.Tree Pointer}
    (painted : Color)
    (sides : ∀ frame ∈ inner, frame.side = .left)
    (nodup :
      (path.plug
        (.node color left node
          (inner.plug (.node lower .nil successor rest)))).names.Nodup) :
    (path.plug
        (.node color left node
          (inner.plug (.node lower .nil successor rest)))).names.erase
        node =
      (Path.plug (inner ++ ⟨.right, color, successor, left⟩ :: path)
        (rest.paint painted)).names := by
  have outside : node ∉ path.before ++ left.names := by
    intro inside
    rw [Path.names_plug, RedBlack.Tree.names] at nodup
    simp only [List.append_assoc, List.cons_append] at nodup
    rw [← List.append_assoc] at nodup
    exact (List.nodup_append.mp nodup).2.2 node inside node
      List.mem_cons_self rfl
  have before :
      (path.plug
        (.node color left node
          (inner.plug (.node lower .nil successor rest)))).names =
        (path.before ++ left.names) ++
          node :: (successor :: (rest.names ++ inner.after) ++
            path.after) := by
    rw [Path.names_plug, RedBlack.Tree.names, Path.names_plug,
      Path.before_of_left sides]
    simp [RedBlack.Tree.names]
  have after :
      (Path.plug (inner ++ ⟨.right, color, successor, left⟩ :: path)
        (rest.paint painted)).names =
        (path.before ++ left.names) ++
          (successor :: (rest.names ++ inner.after) ++ path.after) := by
    rw [Path.plug_append, Path.plug, Path.names_plug]
    simp only [RedBlack.Tree.build, RedBlack.Tree.names]
    rw [Path.names_plug, Path.before_of_left sides]
    simp
  rw [before, erase_middle outside, after]

/-- `__rb_erase` of a node without a left child. -/
theorem rbEraseNode_right
    (holds : Holds memory path (.node color .nil node right))
    (balanced : Balanced (.node color .nil node right) height)
    (accepts : Path.Accepts path height color)
    (fuel : Nat) :
    ∃ rebalance after,
      rbEraseNode fuel node memory = .ok (rebalance, after) ∧
        Detached
          ((path.plug (.node color .nil node right)).names.erase node)
          path.length rebalance after := by
  rcases holds with ⟨around, ⟨isNode, word, toLeft, toRight, -, inRight⟩,
    nodup⟩
  have distinct : Distinct path .nil node right :=
    distinct_of_nodup
      (show (path.plug (.build .left color .nil node right)).names.Nodup
        from nodup)
  change Around memory path node at around
  rcases around.changeChild isNode.1 distinct.outside distinct.pathNodup
      (rootOf right) with ⟨middle, changed, placed, words, children⟩
  have inMiddle : Stored middle node right := by
    refine inRight.frame fun name member => ⟨by rw [words], fun side => ?_⟩
    exact children side name fun there => distinct.farOutside member there
  let final := rehang right (parentOf path) .black middle
  have names :
      (path.plug (.node color .nil node right)).names.erase node =
        (path.plug (right.paint .black)).names := by
    have outside : node ∉ path.before := by
      intro inside
      rw [Path.names_plug, RedBlack.Tree.names, RedBlack.Tree.names] at nodup
      simp only [List.append_assoc, List.cons_append,
        List.nil_append] at nodup
      exact (List.nodup_append.mp nodup).2.2 node inside node
        List.mem_cons_self rfl
    rw [Path.names_plug, Path.names_plug, RedBlack.Tree.names, RedBlack.Tree.names]
    simp only [List.append_assoc, List.cons_append, List.nil_append]
    rw [erase_middle outside, RedBlack.Tree.names_paint]
  have held : Holds final path (right.paint .black) := by
    refine ⟨?_, inMiddle.rehang distinct.farNodup _ _, ?_⟩
    · rw [rootOf_paint]
      refine placed.frame (agrees_rehang distinct.farOutside _) ?_
      exact root_rehang _
    · rw [← names]
      exact nodup.erase node
  have detach := detached held
    (show Balanced (.build .left color .nil node right) height
      from balanced) accepts (Nat.le_refl _)
  rw [← names] at detach
  refine ⟨_, final, ?_, detach⟩
  refine (bind_of_eq (load_eq isNode.1 _)).trans ?_
  refine (bind_of_eq (load_eq isNode.1 _)).trans ?_
  rw [toLeft, toRight, if_pos (show rootOf .nil = 0 from rfl)]
  refine (bind_of_eq (loadWord_eq isNode.1)).trans ?_
  rw [word, wordParent_pack around.aligned]
  refine (bind_of_eq changed).trans ?_
  by_cases nonnull : rootOf right ≠ 0
  · rw [if_pos nonnull, if_pos nonnull]
    have nonempty : right ≠ .nil := by
      rintro rfl
      exact nonnull rfl
    have isBlack := (Balanced.only_child
      (show Balanced (.build .left color .nil node right) height
        from balanced) nonempty).1
    rw [isBlack]
    have painted :
        middle.storeWord (rootOf right) (pack (parentOf path) .black) =
          .ok final := by
      simp only [final, rehang, if_pos nonnull]
      exact storeWord_eq nonnull _
    exact bind_of_eq painted
  · rw [if_neg nonnull, if_neg nonnull,
      wordIsBlack_pack around.aligned]
    have unchanged : final = middle := by
      simp only [final, rehang, if_neg nonnull]
    rw [unchanged]
    cases color <;> rfl

/-- `__rb_erase` of a node with a left child only. -/
theorem rbEraseNode_left
    (holds : Holds memory path (.node color left node .nil))
    (balanced : Balanced (.node color left node .nil) height)
    (accepts : Path.Accepts path height color)
    (nonempty : left ≠ .nil)
    (fuel : Nat) :
    ∃ rebalance after,
      rbEraseNode fuel node memory = .ok (rebalance, after) ∧
        Detached
          ((path.plug (.node color left node .nil)).names.erase node)
          path.length rebalance after := by
  rcases holds with ⟨around, ⟨isNode, word, toLeft, toRight, inLeft, -⟩,
    nodup⟩
  have distinct : Distinct path .nil node left :=
    distinct_of_nodup
      (show (path.plug (.build .right color .nil node left)).names.Nodup
        from nodup)
  change Around memory path node at around
  have nonnull : rootOf left ≠ 0 := inLeft.rootOf_ne_zero nonempty
  have only : Balanced (.build .right color .nil node left) height :=
    balanced
  have isBlack := (only.only_child nonempty).1
  subst isBlack
  let middle := rehang left (parentOf path) .black memory
  have placedMiddle : Around middle path node :=
    around.frame (agrees_rehang distinct.farOutside _) (root_rehang _)
  rcases placedMiddle.changeChild isNode.1 distinct.outside
      distinct.pathNodup (rootOf left) with
    ⟨after, changed, placed, words, children⟩
  have names :
      (path.plug (.node .black left node .nil)).names.erase node =
        (path.plug (left.paint .black)).names := by
    have outside : node ∉ path.before ++ left.names := by
      intro inside
      rw [Path.names_plug, RedBlack.Tree.names, RedBlack.Tree.names] at nodup
      simp only [List.append_assoc, List.cons_append] at nodup
      rw [← List.append_assoc] at nodup
      exact (List.nodup_append.mp nodup).2.2 node inside node
        List.mem_cons_self rfl
    rw [Path.names_plug, Path.names_plug, RedBlack.Tree.names, RedBlack.Tree.names]
    simp only [List.append_assoc, List.cons_append, List.nil_append]
    rw [← List.append_assoc, erase_middle outside, RedBlack.Tree.names_paint,
      List.append_assoc]
  have held : Holds after path (left.paint .black) := by
    refine ⟨?_, ?_, ?_⟩
    · rw [rootOf_paint]
      exact placed
    · refine (inLeft.rehang distinct.farNodup _ _).frame
        fun name member => ⟨by rw [words], fun side => ?_⟩
      rw [RedBlack.Tree.names_paint] at member
      exact children side name fun there =>
        distinct.farOutside member there
    · rw [← names]
      exact nodup.erase node
  have detach := detached held only accepts (Nat.le_refl _)
  rw [← names, if_pos nonnull] at detach
  refine ⟨0, after, ?_, detach⟩
  have painted :
      memory.storeWord (rootOf left) (pack (parentOf path) .black) =
        .ok middle := by
    simp only [middle, rehang, if_pos nonnull]
    exact storeWord_eq nonnull _
  refine (bind_of_eq (load_eq isNode.1 _)).trans ?_
  refine (bind_of_eq (load_eq isNode.1 _)).trans ?_
  rw [toLeft, toRight, if_neg nonnull,
    if_pos (show rootOf .nil = 0 from rfl)]
  refine (bind_of_eq (loadWord_eq isNode.1)).trans ?_
  rw [word, wordParent_pack around.aligned]
  refine (bind_of_eq painted).trans ?_
  exact bind_of_eq changed

/-- The successor is the right child itself. -/
theorem rbEraseNode_child
    {lower : Color}
    {successor : Pointer}
    {rest : RedBlack.Tree Pointer}
    (holds :
      Holds memory path
        (.node color left node (.node lower .nil successor rest)))
    (nonempty : left ≠ .nil)
    (fuel : Nat) :
    ∃ after,
      rbEraseNode fuel node memory =
          .ok
            (if rootOf rest ≠ 0 then 0
              else if lower = .black then successor else 0,
              after) ∧
        Around after (⟨.right, color, successor, left⟩ :: path)
          (rootOf rest) ∧
        Stored after successor (rest.paint .black) := by
  rcases holds with
    ⟨around, ⟨isNode, word, toLeft, toRight, inLeft, inRight⟩, nodup⟩
  rcases inRight with
    ⟨successorNode, successorWord, toNil, toRest, -, inRest⟩
  have names : Replaceable path node left [] successor rest :=
    replaceable_of_nodup nodup
  change Around memory path node at around
  have hasLeft : rootOf left ≠ 0 := inLeft.rootOf_ne_zero nonempty
  have successorColor :
      wordIsBlack (memory.parentColor successor) =
        decide (lower = .black) := by
    rw [successorWord, wordIsBlack_pack isNode.2]
  rcases eraseReplace_spec names around isNode word toLeft inLeft hasLeft
      successorNode successorColor inRest successor with
    ⟨after, replaced, placed, newWord, newLeft, newRight, storedLeft,
      storedRest, -⟩
  refine ⟨after, ?_, ⟨successorNode, newWord, ?_, newLeft, storedLeft,
    placed⟩, storedRest⟩
  · refine (bind_of_eq (load_eq isNode.1 _)).trans ?_
    refine (bind_of_eq (load_eq isNode.1 _)).trans ?_
    rw [toLeft, toRight, if_neg hasLeft, rootOf, if_neg successorNode.1]
    refine (bind_of_eq (load_eq successorNode.1 _)).trans ?_
    rw [toNil, if_pos (show rootOf .nil = 0 from rfl)]
    refine (bind_of_eq (load_eq successorNode.1 _)).trans ?_
    rw [toRest]
    exact replaced
  · exact newRight.trans toRest

/-- The successor is further down on the left. -/
theorem rbEraseNode_deep
    {lower : Color}
    {successor : Pointer}
    {rest : RedBlack.Tree Pointer}
    {first : Frame Pointer}
    {others : Path Pointer}
    (holds :
      Holds memory path
        (.node color left node
          (Path.plug (first :: others)
            (.node lower .nil successor rest))))
    (nonempty : left ≠ .nil)
    (isLeft : first.side = .left)
    {child : Pointer}
    (isChild : child = topOf (first :: others) successor) :
    ∃ after,
      (do
        let child2 ← memory.load .right successor
        let memory ← memory.store .left first.name child2
        let memory ← memory.store .right successor child
        let memory ← rbSetParent child successor memory
        eraseReplace node first.name successor child2 memory) =
          Except.ok
            (if rootOf rest ≠ 0 then 0
              else if lower = .black then first.name else 0,
              after) ∧
        Around after
          ((first :: others) ++ ⟨.right, color, successor, left⟩ :: path)
          (rootOf rest) ∧
        Stored after first.name (rest.paint .black) := by
  subst isChild
  have names :
      Replaceable path node left (first :: others) successor rest :=
    replaceable_of_nodup holds.nodup
  have whole :
      Holds memory
        ((first :: others) ++ ⟨.right, color, node, left⟩ :: path)
        (.node lower .nil successor rest) := by
    have stored := whole_plug.mpr ⟨holds.around, holds.stored⟩
    have same :
        Path.plug
            ((first :: others) ++ ⟨.right, color, node, left⟩ :: path)
            (.node lower .nil successor rest) =
          path.plug
            (.node color left node
              (Path.plug (first :: others)
                (.node lower .nil successor rest))) := by
      rw [Path.plug_append]
      rfl
    rw [← same] at stored
    rcases whole_plug.mp stored with ⟨around, inside⟩
    refine ⟨around, inside, ?_⟩
    rw [same]
    exact holds.nodup
  rcases around_append.mp whole.around with ⟨chain, above⟩
  rcases above with ⟨isNode, word, -, toLeft, inLeft, around⟩
  rcases whole.stored with ⟨successorNode, successorWord, -, toRest, -,
    inRest⟩
  change memory.parentColor successor = pack first.name lower
    at successorWord
  change Stored memory successor rest at inRest
  have firstNode : IsNode first.name := chain.1
  have hasLeft : rootOf left ≠ 0 := inLeft.rootOf_ne_zero nonempty
  have firstInside : first.name ∈ Path.names (first :: others) := by
    simp [Path.names]
  let one := memory.setChild .left first.name (rootOf rest)
  let two :=
    one.setChild .right successor (topOf (first :: others) successor)
  have chainTwo : Chain two node (first :: others) (rootOf rest) := by
    have filled := chain.refill names.innerNodup (rootOf rest)
    rw [isLeft] at filled
    exact filled.frame (agrees_setChild names.successorInner _ _)
  rcases chainTwo.rebase names.innerNodup isNode.2 successor with
    ⟨three, hung, chainThree, rootThree, childThree, wordThree⟩
  have reaches :
      ∀ list, successor ∉ list →
        list.Disjoint (Path.names (first :: others)) →
          Agrees list memory three := by
    intro list notSuccessor apart
    have written : Agrees list memory two :=
      (agrees_setChild (fun there => apart there firstInside) _ _).trans
        (agrees_setChild notSuccessor _ _)
    refine written.trans fun name member => ⟨?_, fun side => ?_⟩
    · exact wordThree name fun there => apart member there
    · rw [childThree]
  have atNode := reaches [node] (by simpa using names.different.symm)
    (by simpa using names.nodeInner) node (List.mem_singleton_self _)
  have aroundThree : Around three path node := by
    refine around.frame (reaches _ names.successorPath ?_) rootThree
    exact fun name here there => names.innerPath there here
  have leftThree : Stored three node left :=
    inLeft.frame (reaches _ names.successorLeft names.leftInner)
  have restThree : Stored three successor rest :=
    inRest.frame (reaches _ names.successorRest names.restInner)
  have successorThree :
      three.parentColor successor = pack first.name lower :=
    (wordThree _ names.successorInner).trans successorWord
  have successorColor :
      wordIsBlack (three.parentColor successor) =
        decide (lower = .black) := by
    rw [successorThree, wordIsBlack_pack firstNode.2]
  rcases eraseReplace_spec names aroundThree isNode
      (atNode.1.trans word) ((atNode.2 _).trans toLeft) leftThree hasLeft
      successorNode successorColor restThree first.name with
    ⟨after, replaced, placed, newWord, newLeft, newRight, storedLeft,
      storedRest, agrees⟩
  refine ⟨after, ?_, around_append.mpr ⟨?_, successorNode, newWord, ?_,
    newLeft, storedLeft, placed⟩, storedRest⟩
  · refine (bind_of_eq (load_eq successorNode.1 _)).trans ?_
    rw [toRest]
    refine (bind_of_eq (store_eq firstNode.1 _ _)).trans ?_
    refine (bind_of_eq (store_eq successorNode.1 _ _)).trans ?_
    exact (bind_of_eq hung).trans replaced
  · refine chainThree.frame
      (agrees _ names.successorInner ?_ ?_ names.innerPath)
    · exact names.leftInner
    · exact names.restInner
  · refine newRight.trans ?_
    rw [childThree, child_setChild, if_pos ⟨rfl, rfl⟩]
    rfl

/-- `__rb_erase` of a node with two children. -/
theorem rbEraseNode_both
    (holds : Holds memory path (.node color left node right))
    (balanced : Balanced (.node color left node right) height)
    (accepts : Path.Accepts path height color)
    (hasLeft : left ≠ .nil)
    (hasRight : right ≠ .nil)
    (fuel : Nat) :
    match rbEraseNode fuel node memory with
    | .ok (rebalance, after) =>
        Detached
          ((path.plug (.node color left node right)).names.erase node)
          (path.plug (.node color left node right)).depth rebalance after
    | .error fault =>
        fault = .unfinished ∧
          fuel ≤ (path.plug (.node color left node right)).depth := by
  -- The memory after the step, whichever successor it is.
  have finish :
      ∀ (inner : Path Pointer) (lower : Color) (successor : Pointer)
        (rest : RedBlack.Tree Pointer) (after : Memory),
        right = inner.plug (.node lower .nil successor rest) →
        (∀ frame ∈ inner, frame.side = .left) →
        Around after (inner ++ ⟨.right, color, successor, left⟩ :: path)
          (rootOf rest) →
        Stored after (parentOr successor inner) (rest.paint .black) →
        Detached
          ((path.plug (.node color left node right)).names.erase node)
          (path.plug (.node color left node right)).depth
          (if rootOf rest ≠ 0 then 0
            else if lower = .black then parentOr successor inner else 0)
          after := by
    rintro inner lower successor rest after rfl sides around stored
    have names := names_replaced .black sides holds.nodup
    have accepted :
        ∃ total,
          Balanced (.node lower .nil successor rest) total ∧
            Path.Accepts
              (inner ++ ⟨.right, color, successor, left⟩ :: path) total
              lower := by
      have fits :
          (path.plug
              (.node color left node
                (inner.plug (.node lower .nil successor rest)))).color =
            .black ∧
          ∃ whole, Balanced
            (path.plug
              (.node color left node
                (inner.plug (.node lower .nil successor rest)))) whole :=
        Path.Accepts.plug accepts balanced
      rcases fits with ⟨isBlack, whole, wholeBalanced⟩
      have same :
          Path.plug (inner ++ ⟨.right, color, node, left⟩ :: path)
              (.node lower .nil successor rest) =
            path.plug
              (.node color left node
                (inner.plug (.node lower .nil successor rest))) := by
        rw [Path.plug_append]
        rfl
      rw [← same] at isBlack wholeBalanced
      rcases Path.accepts_of_plug isBlack wholeBalanced with
        ⟨total, here, above⟩
      exact ⟨total, here, above.rename successor⟩
    rcases accepted with ⟨total, here, above⟩
    have parentEq :
        parentOf (inner ++ ⟨.right, color, successor, left⟩ :: path) =
          parentOr successor inner :=
      parentOf_append _ _
    have held :
        Holds after (inner ++ ⟨.right, color, successor, left⟩ :: path)
          (rest.paint .black) := by
      refine ⟨?_, ?_, ?_⟩
      · rw [rootOf_paint]
        exact around
      · rw [parentEq]
        exact stored
      · rw [← names]
        exact holds.nodup.erase node
    have short :
        (inner ++ ⟨.right, color, successor, left⟩ :: path).length ≤
          (path.plug
            (.node color left node
              (inner.plug
                (.node lower .nil successor rest)))).depth := by
      have deep := Path.length_add_depth
        (inner ++ ⟨.right, color, node, left⟩ :: path)
        (.node lower .nil successor rest)
      rw [Path.plug_append] at deep
      change _ ≤ (path.plug (.node color left node
        (inner.plug (.node lower .nil successor rest)))).depth at deep
      simp only [List.length_append, List.length_cons] at deep ⊢
      omega
    have detach := detached held
      (show Balanced (.build .left lower .nil successor rest) total
        from here) above short
    rw [← names, parentEq] at detach
    exact detach
  rcases holds.stored with ⟨isNode, -, toLeft, toRight, inLeft, inRight⟩
  have leftNode : rootOf left ≠ 0 := inLeft.rootOf_ne_zero hasLeft
  cases right with
  | nil => exact absurd rfl hasRight
  | node childColor nextTree child others =>
      rcases inRight with ⟨childNode, -, toNext, -, inNext, -⟩
      by_cases empty : nextTree = .nil
      · subst empty
        rcases rbEraseNode_child holds hasLeft fuel with
          ⟨after, erased, around, stored⟩
        rw [erased]
        exact finish [] childColor child others after rfl
          (fun _ member => absurd member List.not_mem_nil) around stored
      · have nextNode := inNext.rootOf_ne_zero empty
        rcases successorLoop_spec empty inNext with
          ⟨inner, lower, successor, rest, rfl, sides, finds⟩
        have starts :
            rbEraseNode fuel node memory =
              (do
                let found ←
                  successorLoop fuel child
                    (rootOf
                      (inner.plug (.node lower .nil successor rest)))
                    memory
                let child2 ← memory.load .right found.2
                let memory ← memory.store .left found.1 child2
                let memory ← memory.store .right found.2 child
                let memory ← rbSetParent child found.2 memory
                eraseReplace node found.1 found.2 child2 memory) := by
          refine (bind_of_eq (load_eq isNode.1 _)).trans ?_
          refine (bind_of_eq (load_eq isNode.1 _)).trans ?_
          rw [toLeft, toRight, if_neg leftNode, rootOf,
            if_neg childNode.1]
          refine (bind_of_eq (load_eq childNode.1 _)).trans ?_
          rw [toNext, if_neg nextNode]
        have found := finds fuel child
        rw [starts]
        revert found
        cases successorLoop fuel child
            (rootOf (inner.plug (.node lower .nil successor rest)))
            memory with
        | error fault =>
            rintro ⟨unfinished, tooShort⟩
            refine ⟨unfinished, ?_⟩
            have deep := Path.length_add_depth path
              (.node color left node
                (.node childColor
                  (inner.plug (.node lower .nil successor rest)) child
                  others))
            simp only [RedBlack.Tree.depth] at deep
            omega
        | ok pair =>
            rintro rfl
            let last : Frame Pointer := ⟨.left, childColor, child, others⟩
            have whole :
                RedBlack.Tree.node childColor
                    (inner.plug (.node lower .nil successor rest)) child
                    others =
                  Path.plug (inner ++ [last])
                    (.node lower .nil successor rest) := by
              rw [Path.plug_append]
              rfl
            have allLeft :
                ∀ frame ∈ inner ++ [last], frame.side = .left := by
              intro frame member
              rcases List.mem_append.mp member with early | late
              · exact sides frame early
              · rw [List.mem_singleton.mp late]
            have top : topOf (inner ++ [last]) successor = child :=
              topOf_append inner last successor
            rcases exists_first inner last with
              ⟨first, tail, isFirst, firstName⟩
            have parentEq : parentOr child inner = first.name :=
              firstName child rfl
            have successorEq :
                parentOr successor (inner ++ [last]) = first.name := by
              rw [isFirst]
              rfl
            rw [whole] at holds
            rw [isFirst] at holds top
            rcases rbEraseNode_deep holds hasLeft
                (allLeft first (by rw [isFirst]; exact List.mem_cons_self))
                top.symm with
              ⟨after, erased, around, stored⟩
            have ends :
                (do
                  let found ←
                    (Except.ok (parentOr child inner, successor) :
                      Except Fault (Pointer × Pointer))
                  let child2 ← memory.load .right found.2
                  let memory ← memory.store .left found.1 child2
                  let memory ← memory.store .right found.2 child
                  let memory ← rbSetParent child found.2 memory
                  eraseReplace node found.1 found.2 child2 memory) =
                Except.ok
                  (if rootOf rest ≠ 0 then 0
                    else if lower = .black then first.name else 0,
                    after) := by
              rw [parentEq]
              exact erased
            rw [ends, ← successorEq]
            rw [← isFirst] at around
            rw [← successorEq] at stored
            exact finish (inner ++ [last]) lower successor rest after whole
              allLeft around stored

/-- A node which is detached leaves at most one black to make up for. -/
theorem Detached.balanced
    {names : List Pointer}
    {limit : Nat}
    {rebalance : Pointer}
    {after : Memory}
    (detached : Detached names limit rebalance after)
    (fuel : Nat) :
    match
      (if rebalance ≠ 0 then rbEraseFix fuel 0 rebalance after
        else .ok after) with
    | .ok final => HoldsBalanced final names
    | .error fault => fault = .unfinished ∧ fuel ≤ limit := by
  rcases detached with
    ⟨rfl, held⟩ | ⟨frame, rest, rfl, nonnull, holds, accepts, short, same⟩
  · exact held
  · rw [if_pos nonnull]
    have fixed := rbEraseFix_spec fuel holds .nil accepts
    change
      match rbEraseFix fuel 0 frame.name after with
      | .ok final => HoldsBalanced final _
      | .error fault => fault = .unfinished ∧ fuel ≤ rest.length at fixed
    rw [same] at fixed
    revert fixed
    cases rbEraseFix fuel 0 frame.name after with
    | ok final => exact fun held => held
    | error fault =>
        rintro ⟨unfinished, tooShort⟩
        refine ⟨unfinished, ?_⟩
        rw [List.length_cons] at short
        omega

/-- `_rb_erase` takes the node out, and nothing else. -/
theorem rbErase_spec
    {tree : RedBlack.Tree Pointer}
    {total : Nat}
    (whole : Whole memory tree)
    (nodup : tree.names.Nodup)
    (isBlack : tree.color = .black)
    (balanced : Balanced tree total)
    (member : node ∈ tree.names)
    (fuel : Nat) :
    match rbErase fuel node memory with
    | .ok after => HoldsBalanced after (tree.names.erase node)
    | .error fault => fault = .unfinished ∧ fuel ≤ tree.depth := by
  rcases Path.exists_plug member with ⟨path, color, left, right, rfl⟩
  rcases Path.accepts_of_plug isBlack balanced with
    ⟨height, here, accepts⟩
  rcases whole_plug.mp whole with ⟨around, stored⟩
  have holds : Holds memory path (.node color left node right) :=
    ⟨around, stored, nodup⟩
  have deep := Path.length_add_depth path (.node color left node right)
  -- Once the node is detached, the loop does the rest.
  have finish :
      ∀ {rebalance limit after},
        rbEraseNode fuel node memory = .ok (rebalance, after) →
        limit ≤ (path.plug (.node color left node right)).depth →
        Detached
          ((path.plug (.node color left node right)).names.erase node)
          limit rebalance after →
        match rbErase fuel node memory with
        | .ok after =>
            HoldsBalanced after
              ((path.plug (.node color left node right)).names.erase node)
        | .error fault =>
            fault = .unfinished ∧
              fuel ≤ (path.plug (.node color left node right)).depth := by
    intro rebalance limit after erased bound detached
    have continues :
        rbErase fuel node memory =
          if rebalance ≠ 0 then rbEraseFix fuel 0 rebalance after
            else .ok after :=
      bind_of_eq erased
    have fixed := detached.balanced fuel
    rw [continues]
    revert fixed
    cases (if rebalance ≠ 0 then rbEraseFix fuel 0 rebalance after
        else .ok after : Except Fault Memory) with
    | ok final => exact fun held => held
    | error fault =>
        rintro ⟨unfinished, short⟩
        exact ⟨unfinished, Nat.le_trans short bound⟩
  by_cases noLeft : left = .nil
  · subst noLeft
    rcases rbEraseNode_right holds here accepts fuel with
      ⟨rebalance, after, erased, detached⟩
    exact finish erased (by omega) detached
  · by_cases noRight : right = .nil
    · subst noRight
      rcases rbEraseNode_left holds here accepts noLeft fuel with
        ⟨rebalance, after, erased, detached⟩
      exact finish erased (by omega) detached
    · have both :=
        rbEraseNode_both holds here accepts noLeft noRight fuel
      revert both
      cases erased : rbEraseNode fuel node memory with
      | ok pair =>
          intro detached
          exact finish erased (Nat.le_refl _) detached
      | error fault =>
          rintro ⟨unfinished, short⟩
          have stops : rbErase fuel node memory = .error fault := by
            unfold rbErase
            rw [erased]
            rfl
          rw [stops]
          exact ⟨unfinished, short⟩

end EraseNode

end FudanOS.Common.RbTree
