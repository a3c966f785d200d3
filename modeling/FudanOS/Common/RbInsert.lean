import FudanOS.Common.RbStored

/-!
# Insertion into the red-black tree

Each case of `__rb_insert_fix` on the tree in memory, and the loop by induction
on its fuel: the red node goes up the path until it fits.
-/

namespace FudanOS.Common.RbTree

open FudanOS.Library
open FudanOS.Library.RedBlack

section Cases

variable
    {memory : Memory}
    {path : Path Pointer}
    {side : Side}
    {color lower : Color}
    {near middle far : RedBlack.Tree Pointer}
    {node parent gparent above : Pointer}

/-- What is known of the names of a node and its subtrees under a path. -/
structure Distinct
    (path : Path Pointer)
    (near : RedBlack.Tree Pointer)
    (name : Pointer)
    (far : RedBlack.Tree Pointer) : Prop where
  nearNodup : near.names.Nodup
  farNodup : far.names.Nodup
  notNear : name ∉ near.names
  notFar : name ∉ far.names
  apart : near.names.Disjoint far.names
  pathNodup : (Path.names path).Nodup
  nearOutside : near.names.Disjoint (Path.names path)
  farOutside : far.names.Disjoint (Path.names path)
  outside : name ∉ Path.names path

theorem distinct_of_nodup
    (nodup : (path.plug (.build side color near node far)).names.Nodup) :
    Distinct path near node far := by
  rcases Path.nodup_names_plug.mp nodup with ⟨tree, above, apart⟩
  rcases RedBlack.Tree.nodup_names_build.mp tree with
    ⟨nearNodup, farNodup, notNear, notFar, across⟩
  have outside :
      ∀ name, name ∈ (RedBlack.Tree.build side color near node far).names →
        name ∉ Path.names path :=
    fun name inside there => apart there inside
  refine ⟨nearNodup, farNodup, notNear, notFar, across, above, ?_, ?_, ?_⟩
  · intro name inside
    exact outside name (RedBlack.Tree.mem_names_build.mpr (Or.inr (Or.inl inside)))
  · intro name inside
    exact outside name (RedBlack.Tree.mem_names_build.mpr (Or.inr (Or.inr inside)))
  · exact outside node (RedBlack.Tree.mem_names_build.mpr (Or.inl rfl))

/-- Case 1: the red goes from the parent and the uncle to the grandparent. -/
theorem insertRecolor_spec
    (around : Around memory path gparent)
    (stored :
      Stored memory (parentOf path) (.build side color near gparent far))
    (distinct : Distinct path near gparent far)
    (hasParent : rootOf near ≠ 0)
    (hasUncle : rootOf far ≠ 0) :
    ∃ after,
      insertRecolor (rootOf near) gparent (rootOf far) memory =
          .ok (.again gparent (parentOf path), after) ∧
        Around after path gparent ∧
        Stored after (parentOf path)
          (.build side .red (near.paint .black) gparent
            (far.paint .black)) := by
  rcases stored_build.mp stored with
    ⟨isNode, word, toNear, toFar, inNear, inFar⟩
  let first := rehang far gparent .black memory
  let second := rehang near gparent .black first
  have firstWord :
      first.parentColor gparent = pack (parentOf path) color :=
    (parentColor_rehang distinct.notFar _).trans word
  have secondWord :
      second.parentColor gparent = pack (parentOf path) color :=
    (parentColor_rehang distinct.notNear _).trans firstWord
  have firstEq :
      rbSetParentColor (rootOf far) gparent .black memory =
        .ok first := by
    simp only [first, rehang, if_pos hasUncle]
    exact storeWord_eq hasUncle _
  have secondEq :
      rbSetParentColor (rootOf near) gparent .black first =
        .ok second := by
    simp only [second, rehang, if_pos hasParent]
    exact storeWord_eq hasParent _
  refine ⟨second.setWord gparent (pack (parentOf path) .red), ?_, ?_,
    stored_build.mpr ⟨isNode, ?_, ?_, ?_, ?_, ?_⟩⟩
  · have aboveEq : rbParent gparent second = .ok (parentOf path) := by
      refine (bind_of_eq (loadWord_eq isNode.1)).trans ?_
      rw [secondWord, wordParent_pack around.aligned]
      rfl
    refine (bind_of_eq firstEq).trans ?_
    refine (bind_of_eq secondEq).trans ?_
    refine (bind_of_eq aboveEq).trans ?_
    exact bind_of_eq (storeWord_eq isNode.1 _)
  · refine around.frame ?_ (by simp [first, second])
    exact ((agrees_rehang distinct.farOutside _).trans
      (agrees_rehang distinct.nearOutside _)).trans
        (agrees_setWord distinct.outside _)
  · exact (parentColor_setWord _ _).trans (if_pos rfl)
  · simpa [first, second] using toNear
  · simpa [first, second] using toFar
  · have kept : Stored first gparent near :=
      inNear.frame (agrees_rehang
        (fun _ here there => distinct.apart there here) _)
    refine (kept.rehang distinct.nearNodup gparent .black).frame
      (agrees_setWord ?_ _)
    rw [RedBlack.Tree.names_paint]
    exact distinct.notNear
  · have painted : Stored first gparent (far.paint .black) :=
      inFar.rehang distinct.farNodup gparent .black
    refine (painted.frame (agrees_rehang ?_ _)).frame
      (agrees_setWord ?_ _)
    · rw [RedBlack.Tree.names_paint]
      exact distinct.apart
    · rw [RedBlack.Tree.names_paint]
      exact distinct.notFar

/-- Two nodes and three subtrees, before or after a rotation. -/
structure Rotated
    (path : Path Pointer)
    (near : RedBlack.Tree Pointer)
    (lower : Pointer)
    (middle : RedBlack.Tree Pointer)
    (upper : Pointer)
    (far : RedBlack.Tree Pointer) : Prop where
  nearNodup : near.names.Nodup
  middleNodup : middle.names.Nodup
  farNodup : far.names.Nodup
  pathNodup : (Path.names path).Nodup
  different : upper ≠ lower
  lowerNear : lower ∉ near.names
  lowerMiddle : lower ∉ middle.names
  lowerFar : lower ∉ far.names
  lowerOutside : lower ∉ Path.names path
  upperNear : upper ∉ near.names
  upperMiddle : upper ∉ middle.names
  upperFar : upper ∉ far.names
  upperOutside : upper ∉ Path.names path
  nearMiddle : near.names.Disjoint middle.names
  nearFar : near.names.Disjoint far.names
  middleFar : middle.names.Disjoint far.names
  nearOutside : near.names.Disjoint (Path.names path)
  middleOutside : middle.names.Disjoint (Path.names path)
  farOutside : far.names.Disjoint (Path.names path)

theorem rotated_of_nodup
    {across : Side}
    (nodup :
      (path.plug
        (.build side color (.build across lower near parent middle) gparent
          far)).names.Nodup) :
    Rotated path near parent middle gparent far := by
  have outer := distinct_of_nodup nodup
  rcases RedBlack.Tree.nodup_names_build.mp outer.nearNodup with
    ⟨nearNodup, middleNodup, notNear, notMiddle, nearMiddle⟩
  have inside :
      ∀ name, name = parent ∨ name ∈ near.names ∨ name ∈ middle.names →
        name ∈ (RedBlack.Tree.build across lower near parent middle).names :=
    fun name known => RedBlack.Tree.mem_names_build.mpr known
  constructor
  · exact nearNodup
  · exact middleNodup
  · exact outer.farNodup
  · exact outer.pathNodup
  · rintro rfl
    exact outer.notNear (inside _ (Or.inl rfl))
  · exact notNear
  · exact notMiddle
  · exact fun there => outer.apart (inside _ (Or.inl rfl)) there
  · exact fun there => outer.nearOutside (inside _ (Or.inl rfl)) there
  · exact fun there => outer.notNear (inside _ (Or.inr (Or.inl there)))
  · exact fun there => outer.notNear (inside _ (Or.inr (Or.inr there)))
  · exact outer.notFar
  · exact outer.outside
  · exact nearMiddle
  · exact fun name here there =>
      outer.apart (inside name (Or.inr (Or.inl here))) there
  · exact fun name here there =>
      outer.apart (inside name (Or.inr (Or.inr here))) there
  · exact fun name here there =>
      outer.nearOutside (inside name (Or.inr (Or.inl here))) there
  · exact fun name here there =>
      outer.nearOutside (inside name (Or.inr (Or.inr here))) there
  · exact outer.farOutside

/-- Case 3, whatever the grandparent still says of its other child. -/
theorem insertOuter_spec
    (around : Around memory path gparent)
    (gparentNode : IsNode gparent)
    (word : memory.parentColor gparent = pack (parentOf path) color)
    (toFar : memory.child side.other gparent = rootOf far)
    (inFar : Stored memory gparent far)
    (parentNode : IsNode parent)
    (toNear : memory.child side parent = rootOf near)
    (inNear : Stored memory parent near)
    (inMiddle : Stored memory above middle)
    (isBlack : middle.color = .black)
    (rotated : Rotated path near parent middle gparent far) :
    ∃ after,
      insertOuter side parent gparent (rootOf middle) memory = .ok after ∧
        Around after path parent ∧
        Stored after (parentOf path)
          (.build side color near parent
            (.build side .red middle gparent far)) := by
  let first := memory.setChild side gparent (rootOf middle)
  let second := rehang middle gparent .black first
  let third := second.setChild side.other parent gparent
  have reaches :
      ∀ names, gparent ∉ names → parent ∉ names →
        middle.names.Disjoint names → Agrees names memory third := by
    intro names notGparent notParent apart
    exact ((agrees_setChild notGparent _ _).trans
      (agrees_rehang apart _)).trans (agrees_setChild notParent _ _)
  have placed : Around third path gparent := by
    refine around.frame
      (reaches _ rotated.upperOutside rotated.lowerOutside
        rotated.middleOutside) ?_
    simp [first, second, third]
  have thirdWord :
      third.parentColor gparent = pack (parentOf path) color :=
    (parentColor_rehang rotated.upperMiddle _).trans word
  rcases placed.rotateSetParents gparentNode parentNode rotated.different
      rotated.upperOutside rotated.lowerOutside rotated.pathNodup
      thirdWord .red with
    ⟨after, turned, placedAfter, parentWord, gparentWord, children,
      agrees⟩
  have thirdMiddle : Stored third gparent middle := by
    have hung :=
      (inMiddle.frame (agrees_setChild rotated.upperMiddle side
        (rootOf middle))).rehang rotated.middleNodup gparent .black
    rw [RedBlack.Tree.paint_color isBlack] at hung
    exact hung.frame (agrees_setChild rotated.lowerMiddle _ _)
  refine ⟨after, ?_, placedAfter,
    stored_build.mpr ⟨parentNode, parentWord, ?_, ?_, ?_,
      stored_build.mpr ⟨gparentNode, gparentWord, ?_, ?_, ?_, ?_⟩⟩⟩
  · refine (bind_of_eq (store_eq gparentNode.1 _ _)).trans ?_
    refine (bind_of_eq (setParentColorIf_eq _)).trans ?_
    exact (bind_of_eq (store_eq parentNode.1 _ _)).trans turned
  · rw [children _ _ rotated.lowerOutside]
    simp [first, second, third, child_setChild, rotated.different.symm,
      toNear]
  · rw [children _ _ rotated.lowerOutside, rootOf_build]
    simp [third, child_setChild]
  · refine (inNear.frame
      (reaches _ rotated.upperNear rotated.lowerNear ?_)).frame
        (agrees _ rotated.upperNear rotated.lowerNear rotated.nearOutside)
    exact fun name here there => rotated.nearMiddle there here
  · rw [children _ _ rotated.upperOutside]
    simp [first, second, third, child_setChild, rotated.different]
  · rw [children _ _ rotated.upperOutside]
    simp [first, second, third, child_setChild, rotated.different, toFar]
  · exact thirdMiddle.frame
      (agrees _ rotated.upperMiddle rotated.lowerMiddle
        rotated.middleOutside)
  · exact (inFar.frame
      (reaches _ rotated.upperFar rotated.lowerFar
        rotated.middleFar)).frame
        (agrees _ rotated.upperFar rotated.lowerFar rotated.farOutside)

/-- Case 2: the parent goes under the node, with the near subtree of it. -/
theorem insertInner_spec
    {inner outer sibling : RedBlack.Tree Pointer}
    (parentNode : IsNode parent)
    (toSibling : memory.child side parent = rootOf sibling)
    (inSibling : Stored memory parent sibling)
    (stored : Stored memory parent (.build side .red inner node outer))
    (isBlack : inner.color = .black)
    (rotated : Rotated path sibling parent inner node outer) :
    ∃ after,
      insertInner side node parent memory = .ok after ∧
        after.root = memory.root ∧
        after.child side node = parent ∧
        after.child side.other node = rootOf outer ∧
        Stored after node outer ∧
        Stored after node (.build side .red sibling parent inner) ∧
        ∀ names, node ∉ names → parent ∉ names →
          inner.names.Disjoint names → Agrees names memory after := by
  rcases stored_build.mp stored with
    ⟨isNode, word, toInner, toOuter, inInner, inOuter⟩
  let first := memory.setChild side.other parent (rootOf inner)
  let second := rehang inner parent .black first
  let third := second.setChild side node parent
  let fourth := third.setWord parent (pack node .red)
  have reaches :
      ∀ names, node ∉ names → parent ∉ names →
        inner.names.Disjoint names → Agrees names memory fourth := by
    intro names notNode notParent apart
    exact (((agrees_setChild notParent _ _).trans
      (agrees_rehang apart _)).trans (agrees_setChild notNode _ _)).trans
        (agrees_setWord notParent _)
  have fourthInner : Stored fourth parent inner := by
    have hung :=
      (inInner.frame (agrees_setChild rotated.lowerMiddle side.other
        (rootOf inner))).rehang rotated.middleNodup parent .black
    rw [RedBlack.Tree.paint_color isBlack] at hung
    exact (hung.frame (agrees_setChild rotated.upperMiddle _ _)).frame
      (agrees_setWord rotated.lowerMiddle _)
  refine ⟨fourth, ?_, ?_, ?_, ?_, ?_, ?_, reaches⟩
  · refine (bind_of_eq (load_eq isNode.1 _)).trans ?_
    rw [toInner]
    refine (bind_of_eq (store_eq parentNode.1 _ _)).trans ?_
    refine (bind_of_eq (setParentColorIf_eq _)).trans ?_
    refine (bind_of_eq (store_eq isNode.1 _ _)).trans ?_
    exact storeWord_eq parentNode.1 _
  · simp [first, second, third, fourth]
  · simp [third, fourth, child_setChild]
  · simp [first, second, third, fourth, child_setChild,
      rotated.different, toOuter]
  · exact inOuter.frame
      (reaches _ rotated.upperFar rotated.lowerFar rotated.middleFar)
  · refine stored_build.mpr
      ⟨parentNode, ?_, ?_, ?_, ?_, fourthInner⟩
    · exact (parentColor_setWord _ _).trans (if_pos rfl)
    · simp [first, second, third, fourth, child_setChild,
        rotated.different.symm, toSibling]
    · simp [first, second, third, fourth, child_setChild,
        rotated.different.symm]
    · refine inSibling.frame
        (reaches _ rotated.upperNear rotated.lowerNear ?_)
      exact fun name here there => rotated.nearMiddle there here

end Cases

/-! ## The loop -/

section Loop

variable
    {memory : Memory}
    {path : Path Pointer}

/-- The memory holds a tree around a hole, with the subtree in it. -/
structure Holds
    (memory : Memory)
    (path : Path Pointer)
    (tree : RedBlack.Tree Pointer) : Prop where
  around : Around memory path (rootOf tree)
  stored : Stored memory (parentOf path) tree
  nodup : (path.plug tree).names.Nodup

theorem holds_cons
    {frame : Frame Pointer}
    {tree : RedBlack.Tree Pointer} :
    Holds memory (frame :: path) tree ↔
      Holds memory path
        (.build frame.side frame.color tree frame.name
          frame.sibling) := by
  constructor
  · rintro ⟨around, stored, nodup⟩
    have whole := whole_plug.mpr ⟨around, stored⟩
    rw [Path.plug] at whole
    rcases whole_plug.mp whole with ⟨outer, inner⟩
    exact ⟨outer, inner, nodup⟩
  · rintro ⟨around, stored, nodup⟩
    have whole := whole_plug.mpr ⟨around, stored⟩
    rcases whole_plug.mp (show Whole memory
      (Path.plug (frame :: path) tree) from whole) with ⟨outer, inner⟩
    exact ⟨outer, inner, nodup⟩

/-- The memory holds a red-black tree with the names in that order. -/
def HoldsBalanced (memory : Memory) (names : List Pointer) : Prop :=
  ∃ tree total,
    Whole memory tree ∧ tree.names = names ∧ names.Nodup ∧
      tree.color = .black ∧ Balanced tree total

theorem Holds.holdsBalanced
    {tree : RedBlack.Tree Pointer}
    {height : Nat}
    (holds : Holds memory path tree)
    (balanced : Balanced tree height)
    (accepts : Path.Accepts path height tree.color) :
    HoldsBalanced memory (path.plug tree).names := by
  rcases accepts.plug balanced with ⟨isBlack, total, whole⟩
  exact ⟨path.plug tree, total, whole_plug.mpr
    ⟨holds.around, holds.stored⟩, rfl, holds.nodup, isBlack, whole⟩

/-- A root which has become red is painted black. -/
theorem insertFix_root
    {tree : RedBlack.Tree Pointer}
    {height : Nat}
    (stored : Stored memory 0 tree)
    (nodup : tree.names.Nodup)
    (balanced : Balanced tree height)
    (isRed : tree.color = .red) :
    ∃ after,
      (do
        let memory ← rbSetParentColor (rootOf tree) 0 .black memory
        return { memory with root := rootOf tree }) =
          Except.ok after ∧
        HoldsBalanced after tree.names := by
  have nonempty : tree ≠ .nil := by
    rintro rfl
    cases isRed
  rcases RedBlack.Tree.exists_build .left nonempty with
    ⟨color, near, name, far, rfl⟩
  have nonnull : rootOf (.build .left color near name far) ≠ 0 :=
    (stored_build.mp stored).1.1
  refine ⟨_, bind_of_eq (storeWord_eq nonnull _), ?_⟩
  have hung := stored.rehang nodup 0 .black
  unfold rehang at hung
  rw [if_pos nonnull] at hung
  have painted := balanced.blacken isRed
  refine ⟨_, _, ⟨?_, hung.frame fun _ _ => ⟨rfl, fun _ => rfl⟩⟩,
    RedBlack.Tree.names_paint _ _, nodup, ?_, painted⟩
  · exact (rootOf_paint .black (.build .left color near name far)).symm
  · rw [RedBlack.Tree.paint_build, RedBlack.Tree.color_build]

/-- The uncle is red: the grandparent is the next red node. -/
theorem insertFixOn_recolor
    {side across : Side}
    {parent gparent : Pointer}
    {tree sibling uncle : RedBlack.Tree Pointer}
    {height : Nat}
    (holds :
      Holds memory
        (⟨across, .red, parent, sibling⟩ ::
          ⟨side, .black, gparent, uncle⟩ :: path) tree)
    (balanced : Balanced tree height)
    (balancedSibling : Balanced sibling height)
    (balancedUncle : Balanced uncle height)
    (isRed : uncle.color = .red) :
    ∃ after next,
      insertFixOn side (rootOf tree) parent gparent memory =
          .ok (.again (rootOf next) (parentOf path), after) ∧
        Holds after path next ∧ Balanced next (height + 1) ∧
        next.color = .red ∧
        (path.plug next).names =
          (path.plug
            (.build side .black (.build across .red tree parent sibling)
              gparent uncle)).names := by
  rcases holds_cons.mp (holds_cons.mp holds) with
    ⟨around, stored, nodup⟩
  dsimp only at around stored nodup
  rw [rootOf_build] at around
  rcases stored_build.mp stored with
    ⟨isNode, -, -, toUncle, inParent, inUncle⟩
  have distinct := distinct_of_nodup nodup
  have hasUncle : rootOf uncle ≠ 0 := by
    have nonempty : uncle ≠ .nil := by
      rintro rfl
      cases isRed
    exact inUncle.rootOf_ne_zero nonempty
  have hasParent :
      rootOf (.build across .red tree parent sibling) ≠ 0 := by
    rw [rootOf_build]
    exact (stored_build.mp inParent).1.1
  rcases insertRecolor_spec around stored distinct hasParent hasUncle with
    ⟨after, recolored, placed, storedAfter⟩
  rw [rootOf_build] at recolored
  have sameNames :
      (RedBlack.Tree.build side .red
        ((RedBlack.Tree.build across .red tree parent sibling).paint .black) gparent
        (uncle.paint .black)).names =
      (RedBlack.Tree.build side .black
        (.build across .red tree parent sibling) gparent uncle).names :=
    RedBlack.Tree.names_colors _ _ _ _ (RedBlack.Tree.names_paint _ _) (RedBlack.Tree.names_paint _ _)
  refine ⟨after, _, ?_, ⟨?_, storedAfter, ?_⟩, ?_, RedBlack.Tree.color_build ..,
    Path.names_plug_congr _ sameNames⟩
  · refine (bind_of_eq (load_eq isNode.1 _)).trans ?_
    rw [toUncle, rootOf_build]
    refine (bind_of_eq (inUncle.isRedIf isNode.2)).trans ?_
    rw [isRed]
    exact recolored
  · rw [rootOf_build]
    exact placed
  · rw [Path.names_plug_congr _ sameNames]
    exact nodup
  · refine balanced_red.mpr ⟨?_, balancedUncle.blacken isRed, ?_, ?_⟩
    · rw [RedBlack.Tree.paint_build]
      exact balanced_black.mpr ⟨balanced, balancedSibling⟩
    · rw [RedBlack.Tree.paint_build, RedBlack.Tree.color_build]
    · cases uncle with
      | nil => rfl
      | node color left name right => rfl

/-- The uncle is black: one or two rotations are the last thing to do. -/
theorem insertFixOn_rotate
    {side across : Side}
    {parent gparent : Pointer}
    {tree sibling uncle : RedBlack.Tree Pointer}
    {height : Nat}
    (holds :
      Holds memory
        (⟨across, .red, parent, sibling⟩ ::
          ⟨side, .black, gparent, uncle⟩ :: path) tree)
    (balanced : Balanced tree height)
    (redTree : tree.color = .red)
    (balancedSibling : Balanced sibling height)
    (blackSibling : sibling.color = .black)
    (balancedUncle : Balanced uncle height)
    (blackUncle : uncle.color = .black)
    (accepts : Path.Accepts path (height + 1) .black) :
    ∃ after,
      insertFixOn side (rootOf tree) parent gparent memory =
          .ok (.done, after) ∧
        HoldsBalanced after
          (path.plug
            (.build side .black (.build across .red tree parent sibling)
              gparent uncle)).names := by
  rcases holds_cons.mp (holds_cons.mp holds) with
    ⟨around, stored, nodup⟩
  dsimp only at around stored nodup
  rw [rootOf_build] at around
  rcases stored_build.mp stored with
    ⟨gparentNode, word, -, toUncle, inParent, inUncle⟩
  rcases stored_build.mp inParent with
    ⟨parentNode, -, toTree, toSibling, inTree, inSibling⟩
  have rotated := rotated_of_nodup nodup
  have nonempty : tree ≠ .nil := by
    rintro rfl
    cases redTree
  have treeNode : rootOf tree ≠ 0 := inTree.rootOf_ne_zero nonempty
  have starts :
      ∀ {result},
        (do
          let tmp ← memory.load side.other parent
          if rootOf tree = tmp then
            let memory ← insertInner side (rootOf tree) parent memory
            let tmp ← memory.load side.other (rootOf tree)
            return (Turn.done,
              ← insertOuter side (rootOf tree) gparent tmp memory)
          else
            return (Turn.done,
              ← insertOuter side parent gparent tmp memory)) = result →
        insertFixOn side (rootOf tree) parent gparent memory = result := by
    intro result rest
    refine (bind_of_eq (load_eq gparentNode.1 _)).trans ?_
    rw [toUncle]
    refine (bind_of_eq (inUncle.isRedIf gparentNode.2)).trans ?_
    rw [blackUncle]
    exact rest
  by_cases same : across = side
  · subst same
    have notInner : rootOf tree ≠ rootOf sibling := by
      intro equal
      have there : rootOf sibling ∈ sibling.names :=
        rootOf_mem (equal ▸ treeNode)
      rw [← equal] at there
      exact rotated.nearMiddle (rootOf_mem treeNode) there
    rcases insertOuter_spec around gparentNode word toUncle inUncle
        parentNode toTree inTree inSibling blackSibling rotated with
      ⟨after, turned, placed, storedAfter⟩
    have sameNames :=
      RedBlack.Tree.names_rotate across .black .red .black .red tree sibling uncle
        parent gparent
    refine ⟨after, starts ?_, ?_⟩
    · refine (bind_of_eq (load_eq parentNode.1 _)).trans ?_
      rw [toSibling]
      simp only [if_neg notInner]
      exact bind_of_eq turned
    · rw [← Path.names_plug_congr path sameNames] at nodup ⊢
      have turnedBalanced :
          Balanced
            (.build across .black tree parent
              (.build across .red sibling gparent uncle))
            (height + 1) :=
        balanced_black.mpr ⟨balanced, balanced_red.mpr
          ⟨balancedSibling, balancedUncle, blackSibling, blackUncle⟩⟩
      refine Holds.holdsBalanced ⟨?_, storedAfter, nodup⟩
        turnedBalanced ?_
      · rw [rootOf_build]
        exact placed
      · rw [RedBlack.Tree.color_build]
        exact accepts
  · have isOther := Side.eq_other_of_ne same
    subst isOther
    rcases RedBlack.Tree.exists_build side nonempty with
      ⟨color, inner, node, outer, rfl⟩
    rw [RedBlack.Tree.color_build] at redTree
    subst redTree
    rcases balanced_red.mp balanced with
      ⟨balancedInner, balancedOuter, blackInner, blackOuter⟩
    have sameInner :
        (RedBlack.Tree.build side .red (.build side .red sibling parent inner) node
          outer).names =
        (RedBlack.Tree.build side.other .red (.build side .red inner node outer)
          parent sibling).names := by
      rw [RedBlack.Tree.build_other]
      exact (RedBlack.Tree.names_rotate side .red .red .red .red sibling inner
        outer parent node).symm
    have sameOuter :
        (RedBlack.Tree.build side .black
          (.build side .red (.build side .red sibling parent inner) node
            outer) gparent uncle).names =
        (RedBlack.Tree.build side .black
          (.build side.other .red (.build side .red inner node outer)
            parent sibling) gparent uncle).names :=
      RedBlack.Tree.names_colors _ _ _ _ sameInner rfl
    rw [← Path.names_plug_congr path sameOuter] at nodup ⊢
    have outerRotated := rotated_of_nodup nodup
    have innerRotated : Rotated [] sibling parent inner node outer := by
      have innerNodup :=
        (RedBlack.Tree.nodup_names_build.mp (Path.nodup_names_plug.mp nodup).1).1
      exact rotated_of_nodup innerNodup
    rw [Side.other_other] at toSibling
    rw [rootOf_build] at toTree starts ⊢
    rcases insertInner_spec parentNode toSibling inSibling inTree
        blackInner innerRotated with
      ⟨middle, moved, root, toParent, toOuter, inOuter, inNode, agrees⟩
    have insideNode :
        ∀ name, name ∈ sibling.names ∨ name = parent ∨
            name ∈ inner.names →
          name ∈ (RedBlack.Tree.build side .red sibling parent inner).names := by
      intro name known
      rw [RedBlack.Tree.mem_names_build]
      tauto
    have reaches :
        ∀ names, node ∉ names →
          (RedBlack.Tree.build side .red sibling parent inner).names.Disjoint
            names → Agrees names memory middle := by
      intro names notNode apart
      refine agrees names notNode ?_ ?_
      · exact fun there =>
          apart (insideNode _ (Or.inr (Or.inl rfl))) there
      · exact fun name here there =>
          apart (insideNode _ (Or.inr (Or.inr here))) there
    have atGparent : Agrees [gparent] memory middle := by
      refine reaches _ ?_ ?_
      · simpa using outerRotated.different.symm
      · simpa using outerRotated.upperNear
    have gparentSame := atGparent gparent (List.mem_singleton_self _)
    have placedMiddle : Around middle path gparent :=
      around.frame
        (reaches _ outerRotated.lowerOutside outerRotated.nearOutside) root
    have uncleMiddle : Stored middle gparent uncle :=
      inUncle.frame
        (reaches _ outerRotated.lowerFar outerRotated.nearFar)
    have nodeNode : IsNode node := (stored_build.mp inTree).1
    have toNear :
        middle.child side node =
          rootOf (.build side .red sibling parent inner) := by
      rw [rootOf_build]
      exact toParent
    rcases insertOuter_spec placedMiddle gparentNode
        (gparentSame.1.trans word) ((gparentSame.2 _).trans toUncle)
        uncleMiddle nodeNode toNear inNode inOuter blackOuter
        outerRotated with
      ⟨after, turned, placed, storedAfter⟩
    have sameNames :=
      RedBlack.Tree.names_rotate side .black .red .black .red
        (.build side .red sibling parent inner) outer uncle node gparent
    refine ⟨after, starts ?_, ?_⟩
    · refine (bind_of_eq (load_eq parentNode.1 _)).trans ?_
      rw [toTree]
      simp only [if_true]
      refine (bind_of_eq moved).trans ?_
      refine (bind_of_eq (load_eq nodeNode.1 _)).trans ?_
      rw [toOuter]
      exact bind_of_eq turned
    · rw [← Path.names_plug_congr path sameNames] at nodup ⊢
      have turnedBalanced :
          Balanced
            (.build side .black (.build side .red sibling parent inner) node
              (.build side .red outer gparent uncle))
            (height + 1) :=
        balanced_black.mpr
          ⟨balanced_red.mpr
            ⟨balancedSibling, balancedInner, blackSibling, blackInner⟩,
          balanced_red.mpr
            ⟨balancedOuter, balancedUncle, blackOuter, blackUncle⟩⟩
      refine Holds.holdsBalanced ⟨?_, storedAfter, nodup⟩
        turnedBalanced ?_
      · rw [rootOf_build]
        exact placed
      · rw [RedBlack.Tree.color_build]
        exact accepts

/-- Which side the code takes is the side on which the parent is. -/
theorem Holds.side_eq
    {frame : Frame Pointer}
    {tree : RedBlack.Tree Pointer}
    (holds : Holds memory (frame :: path) tree)
    (nonnull : rootOf tree ≠ 0 ∨ rootOf frame.sibling ≠ 0) :
    (if rootOf tree ≠ memory.child .right frame.name then Side.left
      else Side.right) = frame.side := by
  rcases holds.around with ⟨-, -, toHole, toSibling, -, -⟩
  cases known : frame.side with
  | right =>
      rw [known] at toHole
      rw [toHole]
      exact if_neg fun different => different rfl
  | left =>
      rw [known] at toSibling
      change memory.child .right frame.name = _ at toSibling
      rw [toSibling, if_pos]
      intro equal
      have both : rootOf tree ≠ 0 := by
        rw [← equal, or_self] at nonnull
        exact nonnull
      have there : rootOf frame.sibling ∈ frame.sibling.names :=
        rootOf_mem (equal ▸ both)
      rw [← equal] at there
      have distinct := distinct_of_nodup holds.nodup
      exact distinct.apart (rootOf_mem both) there

/-- One iteration of the loop under a red parent. -/
theorem rbInsertFix_step
    {fuel : Nat}
    {side across : Side}
    {parent gparent : Pointer}
    {tree sibling uncle : RedBlack.Tree Pointer}
    {turn : Turn}
    {after : Memory}
    (holds :
      Holds memory
        (⟨across, .red, parent, sibling⟩ ::
          ⟨side, .black, gparent, uncle⟩ :: path) tree) :
    insertFixOn side (rootOf tree) parent gparent memory =
        .ok (turn, after) →
      rbInsertFix (fuel + 1) (rootOf tree) parent memory =
        match turn with
        | .done => .ok after
        | .again node above => rbInsertFix fuel node above after := by
  intro turned
  rcases holds.around with ⟨parentNode, word, -, -, -, above⟩
  change memory.parentColor parent = pack gparent .red at word
  have gparentNode : IsNode gparent := above.1
  have isRed : rbIsBlack parent memory = .ok false := by
    refine (bind_of_eq (loadWord_eq parentNode.1)).trans ?_
    change Except.ok (wordIsBlack (memory.parentColor parent)) = _
    rw [word, wordIsBlack_pack gparentNode.2]
    rfl
  have lifted :
      Holds memory (⟨side, .black, gparent, uncle⟩ :: path)
        (.build across .red tree parent sibling) :=
    holds_cons.mp holds
  have sideEq :=
    lifted.side_eq (Or.inl (by rw [rootOf_build]; exact parentNode.1))
  rw [rootOf_build] at sideEq
  rw [rbInsertFix, if_neg parentNode.1]
  refine (bind_of_eq isRed).trans ?_
  refine (bind_of_eq (loadWord_eq parentNode.1)).trans ?_
  rw [word, pack_red]
  refine (bind_of_eq (load_eq gparentNode.1 _)).trans ?_
  simp only [sideEq]
  refine (bind_of_eq turned).trans ?_
  cases turn with
  | done => rfl
  | again node above => rfl

/-- The loop ends here, or goes on from the grandparent. -/
theorem insertFix_climbs
    {fuel : Nat}
    {side across : Side}
    {parent gparent : Pointer}
    {tree sibling uncle : RedBlack.Tree Pointer}
    {height : Nat}
    (higher :
      ∀ {memory : Memory} {path : Path Pointer} {tree : RedBlack.Tree Pointer}
        {height : Nat},
        Holds memory path tree → Balanced tree height →
          tree.color = .red → Path.Accepts path height .black →
          match rbInsertFix fuel (rootOf tree) (parentOf path) memory with
          | .ok after => HoldsBalanced after (path.plug tree).names
          | .error fault => fault = .unfinished ∧ fuel ≤ path.length)
    (holds :
      Holds memory
        (⟨across, .red, parent, sibling⟩ ::
          ⟨side, .black, gparent, uncle⟩ :: path) tree)
    (balanced : Balanced tree height)
    (isRed : tree.color = .red)
    (balancedSibling : Balanced sibling height)
    (blackSibling : sibling.color = .black)
    (balancedUncle : Balanced uncle height)
    (accepts : Path.Accepts path (height + 1) .black) :
    match rbInsertFix (fuel + 1) (rootOf tree) parent memory with
    | .ok after =>
        HoldsBalanced after
          (path.plug
            (.build side .black (.build across .red tree parent sibling)
              gparent uncle)).names
    | .error fault =>
        fault = .unfinished ∧ fuel + 1 ≤ path.length + 1 + 1 := by
  cases uncleColor : uncle.color with
  | red =>
      rcases insertFixOn_recolor holds balanced balancedSibling
          balancedUncle uncleColor with
        ⟨after, next, turned, nextHolds, nextBalanced, nextRed, names⟩
      rw [rbInsertFix_step holds turned]
      dsimp only
      have onward := higher nextHolds nextBalanced nextRed accepts
      rw [names] at onward
      revert onward
      cases rbInsertFix fuel (rootOf next) (parentOf path) after with
      | ok final => exact fun held => held
      | error fault =>
          rintro ⟨unfinished, short⟩
          exact ⟨unfinished, by omega⟩
  | black =>
      rcases insertFixOn_rotate holds balanced isRed balancedSibling
          blackSibling balancedUncle uncleColor accepts with
        ⟨after, turned, held⟩
      rw [rbInsertFix_step holds turned]
      exact held

theorem rbInsertFix_spec
    (fuel : Nat)
    {tree : RedBlack.Tree Pointer}
    {height : Nat}
    (holds : Holds memory path tree)
    (balanced : Balanced tree height)
    (isRed : tree.color = .red)
    (accepts : Path.Accepts path height .black) :
    match rbInsertFix fuel (rootOf tree) (parentOf path) memory with
    | .ok after => HoldsBalanced after (path.plug tree).names
    | .error fault => fault = .unfinished ∧ fuel ≤ path.length := by
  induction fuel generalizing memory path tree height with
  | zero => exact ⟨rfl, Nat.zero_le _⟩
  | succ fuel ih =>
      cases path with
      | nil =>
          rcases insertFix_root holds.stored holds.nodup balanced isRed with
            ⟨after, painted, held⟩
          unfold rbInsertFix
          rw [parentOf, if_pos rfl, painted]
          exact held
      | cons frame rest =>
          rcases holds.around with
            ⟨parentNode, word, toHole, toSibling, sibling, above⟩
          rcases frame with ⟨across, color, parent, siblingTree⟩
          have blackEq :
              rbIsBlack parent memory =
                .ok (decide (color = .black)) := by
            refine (bind_of_eq (loadWord_eq parentNode.1)).trans ?_
            rw [word]
            change Except.ok (wordIsBlack _) = _
            rw [wordIsBlack_pack above.aligned]
          cases color with
          | black =>
              have stops :
                  rbInsertFix (fuel + 1) (rootOf tree) parent memory =
                    .ok memory := by
                unfold rbInsertFix
                rw [if_neg parentNode.1]
                exact bind_of_eq blackEq
              change
                match rbInsertFix (fuel + 1) (rootOf tree) parent
                  memory with
                | .ok after => HoldsBalanced after _
                | .error fault => fault = .unfinished ∧ _
              rw [stops]
              exact holds.holdsBalanced balanced
                ⟨accepts.1, accepts.2⟩
          | red =>
              rcases accepts with
                ⟨balancedSibling, -, blackSibling, acceptsRed⟩
              cases rest with
              | nil => cases acceptsRed
              | cons upper rest =>
                  rcases upper with ⟨side, upperColor, gparent, uncle⟩
                  cases upperColor with
                  | red => cases acceptsRed.2.1
                  | black =>
                      rcases acceptsRed with ⟨balancedUncle, accepts⟩
                      exact insertFix_climbs ih holds balanced isRed
                        balancedSibling blackSibling balancedUncle accepts

end Loop

/-! ## The place of a new node -/

section Descend

variable
    {memory : Memory}
    {path : Path Pointer}
    {cmp : Pointer → Pointer → Bool}
    {node : Pointer}

/-- The new node is linked where a child was missing. -/
theorem Holds.link
    {frame : Frame Pointer}
    (holds : Holds memory (frame :: path) .nil)
    (isNode : IsNode node)
    (fresh : node ∉ (Path.plug (frame :: path) .nil).names)
    (childless : ∀ side, memory.child side node = 0) :
    Holds
      ((memory.setChild frame.side frame.name node).setWord node
        frame.name)
      (frame :: path) (.node .red .nil node .nil) := by
  rcases holds.around with
    ⟨parentNode, word, toHole, toSibling, sibling, above⟩
  rcases Path.nodup_names_plug.mp holds.nodup with ⟨-, pathNodup, -⟩
  have outside : node ∉ Path.names (frame :: path) :=
    fun there => fresh (Path.mem_names_plug.mpr (Or.inl there))
  have inner := pathNodup
  simp only [Path.names, List.flatMap_cons, List.cons_append,
    List.nodup_cons, List.mem_append, List.mem_cons, not_or] at inner outside
  rcases inner with ⟨⟨notSibling, notAbove⟩, -⟩
  rcases outside with ⟨notFrame, nodeSibling, nodeAbove⟩
  have reaches :
      ∀ names, frame.name ∉ names → node ∉ names →
        Agrees names memory
          ((memory.setChild frame.side frame.name node).setWord node
            frame.name) :=
    fun names notFrame notNode =>
      (agrees_setChild notFrame _ _).trans (agrees_setWord notNode _)
  refine ⟨⟨parentNode, ?_, ?_, ?_, ?_, ?_⟩,
    ⟨isNode, ?_, ?_, ?_, trivial, trivial⟩, ?_⟩
  · exact ((parentColor_setWord _ _).trans
      (if_neg (Ne.symm notFrame))).trans word
  · simp [child_setChild, rootOf]
  · simp [child_setChild, toSibling]
  · exact sibling.frame (reaches _ notSibling nodeSibling)
  · exact above.frame (reaches _ notAbove nodeAbove) rfl
  · exact ((parentColor_setWord _ _).trans (if_pos rfl)).trans
      (pack_red _).symm
  · simp [child_setChild, notFrame, childless, rootOf]
  · simp [child_setChild, notFrame, childless, rootOf]
  · refine Path.nodup_names_plug.mpr ⟨by simp [RedBlack.Tree.names], pathNodup, ?_⟩
    intro name there here
    simp only [RedBlack.Tree.names, List.nil_append, List.mem_singleton] at here
    subst here
    exact fresh (Path.mem_names_plug.mpr (Or.inl there))

/-- The hole in which a node belongs. -/
structure Place
    (cmp : Pointer → Pointer → Bool)
    (node : Pointer)
    (path : Path Pointer) : Prop where
  before : ∀ other ∈ path.before, cmp other node = true
  after : ∀ other ∈ path.after, cmp node other = true

/-- The subtree on the side to which the comparison points. -/
theorem Place.enter
    (place : Place cmp node path)
    (trans :
      ∀ left middle right, cmp left middle = true →
        cmp middle right = true → cmp left right = true)
    {color : Color}
    {left right : RedBlack.Tree Pointer}
    {name : Pointer}
    (sorted :
      (RedBlack.Tree.node color left name right).names.Pairwise
        fun first second => cmp first second = true) :
    (cmp node name = true →
      Place cmp node (⟨.left, color, name, right⟩ :: path)) ∧
    (cmp name node = true →
      Place cmp node (⟨.right, color, name, left⟩ :: path)) := by
  simp only [RedBlack.Tree.names, List.pairwise_append, List.pairwise_cons] at sorted
  rcases sorted with ⟨-, ⟨larger, -⟩, smaller⟩
  constructor
  · intro less
    constructor
    · intro other member
      simp only [Path.before, List.append_nil] at member
      exact place.before other member
    · intro other member
      simp only [Path.after, List.cons_append, List.mem_cons,
        List.mem_append] at member
      rcases member with rfl | inRight | outside
      · exact less
      · exact trans _ _ _ less (larger other inRight)
      · exact place.after other outside
  · intro greater
    constructor
    · intro other member
      simp only [Path.before, List.mem_append, List.mem_singleton] at member
      rcases member with outside | inLeft | rfl
      · exact place.before other outside
      · exact trans _ _ _
          (smaller other inLeft name List.mem_cons_self) greater
      · exact greater
    · intro other member
      simp only [Path.after, List.nil_append] at member
      exact place.after other member

/-- How the loop of `_rb_insert` ends below a path. -/
def Descended
    (cmp : Pointer → Pointer → Bool)
    (node : Pointer)
    (path : Path Pointer)
    (tree : RedBlack.Tree Pointer)
    (fuel : Nat) :
    Except Fault (Option Memory) → Prop
  | .ok none =>
      ∃ other ∈ tree.names,
        cmp node other = false ∧ cmp other node = false
  | .ok (some after) =>
      ∃ frame inner,
        Path.plug (frame :: inner) .nil = path.plug tree ∧
          Holds after (frame :: inner) (.node .red .nil node .nil) ∧
          Place cmp node (frame :: inner) ∧
          (frame :: inner).length ≤ path.length + tree.depth
  | .error fault => fault = .unfinished ∧ fuel ≤ tree.depth

/-- A step down to one side. -/
theorem Descended.side
    {frame : Frame Pointer}
    {sub : RedBlack.Tree Pointer}
    {fuel : Nat}
    {parent : Pointer}
    (holds : Holds memory (frame :: path) sub)
    (isNode : IsNode node)
    (fresh : node ∉ (Path.plug (frame :: path) sub).names)
    (childless : ∀ side, memory.child side node = 0)
    (isParent : frame.name = parent)
    (place : Place cmp node (frame :: path))
    (deeper :
      sub ≠ .nil →
        Descended cmp node (frame :: path) sub fuel
          (insertDescend cmp node fuel (rootOf sub) memory)) :
    Descended cmp node path
      (.build frame.side frame.color sub frame.name frame.sibling)
      (fuel + 1)
      (do
        let next ← memory.load frame.side parent
        if next = 0 then
          let memory ← memory.store frame.side parent node
          let memory ← memory.storeWord node parent
          insertDescend cmp node fuel next memory
        else
          insertDescend cmp node fuel next memory) := by
  subst isParent
  rcases holds.around with ⟨parentNode, -, toHole, -, -, -⟩
  have depth :
      sub.depth + 1 ≤
        (RedBlack.Tree.build frame.side frame.color sub frame.name
          frame.sibling).depth := by
    cases frame.side with
    | left =>
        simp only [RedBlack.Tree.build, RedBlack.Tree.depth]
        omega
    | right =>
        simp only [RedBlack.Tree.build, RedBlack.Tree.depth]
        omega
  by_cases empty : sub = .nil
  · subst empty
    have linked := holds.link isNode fresh childless
    have ends :
        (do
          let next ← memory.load frame.side frame.name
          if next = 0 then
            let memory ← memory.store frame.side frame.name node
            let memory ← memory.storeWord node frame.name
            insertDescend cmp node fuel next memory
          else
            insertDescend cmp node fuel next memory) =
        insertDescend cmp node fuel 0
          ((memory.setChild frame.side frame.name node).setWord node
            frame.name) := by
      refine (bind_of_eq (load_eq parentNode.1 _)).trans ?_
      rw [toHole]
      simp only [rootOf, if_true]
      refine (bind_of_eq (store_eq parentNode.1 _ _)).trans ?_
      exact bind_of_eq (storeWord_eq isNode.1 _)
    rw [ends]
    cases fuel with
    | zero =>
        refine ⟨rfl, ?_⟩
        omega
    | succ fuel =>
        rw [insertDescend, if_pos rfl]
        refine ⟨frame, path, rfl, linked, place, ?_⟩
        rw [List.length_cons]
        omega
  · have nonnull : rootOf sub ≠ 0 := holds.stored.rootOf_ne_zero empty
    have goes :
        (do
          let next ← memory.load frame.side frame.name
          if next = 0 then
            let memory ← memory.store frame.side frame.name node
            let memory ← memory.storeWord node frame.name
            insertDescend cmp node fuel next memory
          else
            insertDescend cmp node fuel next memory) =
        insertDescend cmp node fuel (rootOf sub) memory := by
      refine (bind_of_eq (load_eq parentNode.1 _)).trans ?_
      rw [toHole, if_neg nonnull]
    rw [goes]
    have found := deeper empty
    revert found
    cases insertDescend cmp node fuel (rootOf sub) memory with
    | error fault =>
        rintro ⟨unfinished, short⟩
        exact ⟨unfinished, by omega⟩
    | ok result =>
        cases result with
        | none =>
            rintro ⟨other, member, equal⟩
            exact ⟨other,
              RedBlack.Tree.mem_names_build.mpr (Or.inr (Or.inl member)), equal⟩
        | some after =>
            rintro ⟨last, inner, same, held, placed, short⟩
            refine ⟨last, inner, same, held, placed, ?_⟩
            rw [List.length_cons] at short
            rw [List.length_cons] at short ⊢
            omega

theorem insertDescend_spec
    (trans :
      ∀ left middle right, cmp left middle = true →
        cmp middle right = true → cmp left right = true)
    (isNode : IsNode node)
    (childless : ∀ side, memory.child side node = 0)
    {tree : RedBlack.Tree Pointer}
    (nonempty : tree ≠ .nil)
    (holds : Holds memory path tree)
    (fresh : node ∉ (path.plug tree).names)
    (sorted :
      tree.names.Pairwise fun first second => cmp first second = true)
    (place : Place cmp node path)
    (fuel : Nat) :
    Descended cmp node path tree fuel
      (insertDescend cmp node fuel (rootOf tree) memory) := by
  induction tree generalizing path fuel with
  | nil => exact absurd rfl nonempty
  | node color left name right leftIh rightIh =>
      cases fuel with
      | zero => exact ⟨rfl, Nat.zero_le _⟩
      | succ fuel =>
          have nameNode : IsNode name := holds.stored.1
          have parts := sorted
          simp only [RedBlack.Tree.names, List.pairwise_append,
            List.pairwise_cons] at parts
          rcases place.enter trans sorted with ⟨toLeft, toRight⟩
          rw [rootOf, insertDescend, if_neg nameNode.1]
          dsimp only
          by_cases less : cmp node name = true
          · rw [if_pos less]
            have below :
                Holds memory (⟨.left, color, name, right⟩ :: path) left :=
              holds_cons.mpr holds
            exact Descended.side below isNode fresh childless rfl
              (toLeft less) fun notNil =>
                leftIh notNil below fresh parts.1 (toLeft less) fuel
          · rw [if_neg less]
            by_cases greater : cmp name node = true
            · rw [if_pos greater]
              have below :
                  Holds memory (⟨.right, color, name, left⟩ :: path)
                    right :=
                holds_cons.mpr holds
              exact Descended.side below isNode fresh childless rfl
                (toRight greater) fun notNil =>
                  rightIh notNil below fresh parts.2.1.2
                    (toRight greater) fuel
            · rw [if_neg greater]
              refine ⟨name, by simp [RedBlack.Tree.names], ?_, ?_⟩
              · simpa using less
              · simpa using greater

/-- The links of a new node are cleared first. -/
theorem insert_clears
    (isNode : IsNode node)
    (memory : Memory) :
    ∃ cleared,
      (∀ fuel,
        rbInsert fuel cmp node memory =
          (do
            match
              ← insertDescend cmp node fuel cleared.root cleared with
            | none => return (-1, cleared)
            | some memory =>
                let parent ← rbRedParent node memory
                return (0, ← rbInsertFix fuel node parent memory))) ∧
        cleared.root = memory.root ∧
        cleared.parentColor node = 0 ∧
        (∀ side, cleared.child side node = 0) ∧
        ∀ names, node ∉ names → Agrees names memory cleared := by
  refine ⟨((memory.setChild .right node 0).setChild .left node 0).setWord
    node 0, fun fuel => ?_, rfl, ?_, ?_, ?_⟩
  · refine (bind_of_eq (store_eq isNode.1 _ _)).trans ?_
    refine (bind_of_eq (store_eq isNode.1 _ _)).trans ?_
    exact bind_of_eq (storeWord_eq isNode.1 _)
  · exact (parentColor_setWord _ _).trans (if_pos rfl)
  · intro side
    cases side with
    | left => simp [child_setChild]
    | right => simp [child_setChild]
  · intro names outside
    exact ((agrees_setChild outside _ _).trans
      (agrees_setChild outside _ _)).trans (agrees_setWord outside _)

/-- What `_rb_insert` leaves of the tree. -/
def Inserted
    (cmp : Pointer → Pointer → Bool)
    (node : Pointer)
    (tree : RedBlack.Tree Pointer)
    (memory : Memory)
    (fuel : Nat) : Except Fault (Int × Memory) → Prop
  | .ok (result, after) =>
      (result = -1 ∧
        (∃ other ∈ tree.names,
          cmp node other = false ∧ cmp other node = false) ∧
        after.root = memory.root ∧ Agrees tree.names memory after) ∨
      (result = 0 ∧
        ∃ front back,
          tree.names = front ++ back ∧
            HoldsBalanced after (front ++ node :: back) ∧
            (∀ other ∈ front, cmp other node = true) ∧
            ∀ other ∈ back, cmp node other = true)
  | .error fault => fault = .unfinished ∧ fuel ≤ tree.depth

/-- `_rb_insert` into an empty tree. -/
theorem rbInsert_empty
    (isNode : IsNode node)
    (empty : memory.root = 0)
    (fuel : Nat) :
    Inserted cmp node .nil memory fuel
      (rbInsert fuel cmp node memory) := by
  rcases insert_clears isNode memory with
    ⟨cleared, equation, root, word, childless, -⟩
  rw [equation, root, empty]
  cases fuel with
  | zero => exact ⟨rfl, Nat.le_refl 0⟩
  | succ fuel =>
      have stored : Stored cleared 0 (.node .red .nil node .nil) :=
        ⟨isNode, word.trans (pack_red 0).symm, childless _, childless _,
          trivial, trivial⟩
      rcases insertFix_root stored (by simp [RedBlack.Tree.names])
          (.red .nil .nil rfl rfl) rfl with ⟨after, painted, held⟩
      have ends :
          rbInsertFix (fuel + 1) node 0 cleared = .ok after := by
        rw [rbInsertFix, if_pos rfl]
        exact painted
      have returned :
          (do
            match ← insertDescend cmp node (fuel + 1) 0 cleared with
            | none => return (-1, cleared)
            | some memory =>
                let parent ← rbRedParent node memory
                return (0, ← rbInsertFix (fuel + 1) node parent memory)) =
            Except.ok ((0 : Int), after) := by
        have stops :
            insertDescend cmp node (fuel + 1) 0 cleared =
              .ok (some cleared) := by
          rw [insertDescend, if_pos rfl]
        refine (bind_of_eq stops).trans ?_
        refine (bind_of_eq (loadWord_eq isNode.1)).trans ?_
        rw [word]
        exact bind_of_eq ends
      rw [returned]
      refine Or.inr ⟨rfl, [], [], rfl, held, ?_, ?_⟩
      · exact fun other member => absurd member List.not_mem_nil
      · exact fun other member => absurd member List.not_mem_nil

theorem rbInsert_spec
    (trans :
      ∀ left middle right, cmp left middle = true →
        cmp middle right = true → cmp left right = true)
    (isNode : IsNode node)
    {tree : RedBlack.Tree Pointer}
    {total : Nat}
    (whole : Whole memory tree)
    (nodup : tree.names.Nodup)
    (isBlack : tree.color = .black)
    (balanced : Balanced tree total)
    (sorted :
      tree.names.Pairwise fun first second => cmp first second = true)
    (fresh : node ∉ tree.names)
    (fuel : Nat) :
    Inserted cmp node tree memory fuel
      (rbInsert fuel cmp node memory) := by
  by_cases empty : tree = .nil
  · subst empty
    exact rbInsert_empty isNode whole.1 fuel
  · rcases insert_clears isNode memory with
      ⟨cleared, equation, root, -, childless, agrees⟩
    have holds : Holds cleared [] tree :=
      ⟨root.trans whole.1, whole.2.frame (agrees _ fresh), nodup⟩
    have placed : Place cmp node [] :=
      ⟨fun _ member => absurd member List.not_mem_nil,
        fun _ member => absurd member List.not_mem_nil⟩
    have descended :=
      insertDescend_spec trans isNode childless empty holds fresh sorted
        placed fuel
    rw [equation, root, whole.1]
    revert descended
    cases insertDescend cmp node fuel (rootOf tree) cleared with
    | error fault =>
        rintro ⟨unfinished, short⟩
        exact ⟨unfinished, short⟩
    | ok result =>
        cases result with
        | none =>
            intro equal
            exact Or.inl ⟨rfl, equal, root, agrees _ fresh⟩
        | some linked =>
            rintro ⟨frame, inner, same, held, place, short⟩
            change Path.plug (frame :: inner) .nil = tree at same
            have accepts :
                Path.Accepts (frame :: inner) 0 .black := by
              rw [← same] at isBlack balanced
              rcases Path.accepts_of_plug isBlack balanced with
                ⟨height, atHole, accepts⟩
              cases atHole
              exact accepts
            have fixed :=
              rbInsertFix_spec fuel held (.red .nil .nil rfl rfl) rfl
                accepts
            have word : linked.parentColor node = frame.name :=
              held.stored.2.1.trans (pack_red _)
            have names :
                tree.names =
                  Path.before (frame :: inner) ++
                    Path.after (frame :: inner) := by
              rw [← same, Path.names_plug]
              simp [RedBlack.Tree.names]
            have linkedNames :
                (Path.plug (frame :: inner)
                  (.node .red .nil node .nil)).names =
                  Path.before (frame :: inner) ++
                    node :: Path.after (frame :: inner) := by
              rw [Path.names_plug]
              simp [RedBlack.Tree.names]
            have continues :
                (do
                  let parent ← rbRedParent node linked
                  return ((0 : Int),
                    ← rbInsertFix fuel node parent linked)) =
                (do
                  return ((0 : Int),
                    ← rbInsertFix fuel node frame.name linked)) := by
              refine (bind_of_eq (loadWord_eq isNode.1)).trans ?_
              rw [word]
            change
              Inserted cmp node tree memory fuel
                (do
                  let parent ← rbRedParent node linked
                  return ((0 : Int),
                    ← rbInsertFix fuel node parent linked))
            rw [continues]
            change
              match rbInsertFix fuel node frame.name linked with
              | .ok after => HoldsBalanced after _
              | .error fault => fault = .unfinished ∧ _ at fixed
            revert fixed
            cases rbInsertFix fuel node frame.name linked with
            | error fault =>
                rintro ⟨unfinished, tooShort⟩
                refine ⟨unfinished, ?_⟩
                rw [List.length_nil, Nat.zero_add] at short
                exact Nat.le_trans tooShort short
            | ok after =>
                intro heldAfter
                rw [linkedNames] at heldAfter
                exact Or.inr ⟨rfl, _, _, names, heldAfter, place.before,
                  place.after⟩

end Descend

end FudanOS.Common.RbTree
