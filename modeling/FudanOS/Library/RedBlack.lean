import Mathlib.Data.List.Nodup

/-!
# Red-black trees and paths in them

Coloured binary trees over any type of names, and the path from a subtree up to
the root, as the list of the frames around a hole.  Left and right are the two
values of `Side`, and `build` puts a subtree on a given side, so that one
statement covers both of two mirrored cases.
-/

namespace FudanOS.Library.RedBlack

inductive Side where
  | left
  | right
  deriving DecidableEq

def Side.other : Side → Side
  | .left => .right
  | .right => .left

@[simp]
theorem Side.other_other (side : Side) : side.other.other = side := by
  cases side <;> rfl

@[simp]
theorem Side.other_ne (side : Side) : side.other ≠ side := by
  cases side <;> decide

@[simp]
theorem Side.ne_other (side : Side) : side ≠ side.other := by
  cases side <;> decide

theorem Side.eq_other_of_ne
    {side across : Side}
    (different : side ≠ across) :
    side = across.other := by
  cases side with
  | left =>
      cases across with
      | left => exact absurd rfl different
      | right => rfl
  | right =>
      cases across with
      | left => rfl
      | right => exact absurd rfl different

inductive Color where
  | red
  | black
  deriving DecidableEq

inductive Tree (Name : Type) where
  | nil
  | node (color : Color) (left : Tree Name) (name : Name) (right : Tree Name)

namespace Tree

variable {Name : Type}

/-- The colour of the top node; an empty tree is black. -/
def color : Tree Name → Color
  | nil => .black
  | node color _ _ _ => color

/-- The names from left to right. -/
def names : Tree Name → List Name
  | nil => []
  | node _ left name right => left.names ++ name :: right.names

/-- A node with one subtree on a side and another across from it. -/
def build (side : Side) (color : Color) (near : Tree Name) (name : Name)
    (far : Tree Name) : Tree Name :=
  match side with
  | .left => node color near name far
  | .right => node color far name near

def paint (color : Color) : Tree Name → Tree Name
  | nil => nil
  | node _ left name right => node color left name right

def depth : Tree Name → Nat
  | nil => 0
  | node _ left _ right => max left.depth right.depth + 1

@[simp]
theorem color_build
    (side : Side)
    (color : Color)
    (near : Tree Name)
    (name : Name)
    (far : Tree Name) :
    (build side color near name far).color = color := by
  cases side <;> rfl

@[simp]
theorem paint_build
    (side : Side)
    (color painted : Color)
    (near : Tree Name)
    (name : Name)
    (far : Tree Name) :
    (build side color near name far).paint painted =
      build side painted near name far := by
  cases side <;> rfl

@[simp]
theorem names_paint
    (color : Color)
    (tree : Tree Name) :
    (tree.paint color).names = tree.names := by
  cases tree <;> rfl

theorem paint_color
    {color : Color}
    {tree : Tree Name}
    (same : tree.color = color) :
    tree.paint color = tree := by
  cases tree with
  | nil => rfl
  | node painted left name right =>
      change painted = color at same
      rw [same]
      rfl

theorem build_other
    (side : Side)
    (color : Color)
    (near : Tree Name)
    (name : Name)
    (far : Tree Name) :
    build side.other color near name far =
      build side color far name near := by
  cases side <;> rfl

/-- Every tree which is not empty is built, on whichever side. -/
theorem exists_build
    (side : Side)
    {tree : Tree Name}
    (nonempty : tree ≠ nil) :
    ∃ color near name far, tree = build side color near name far := by
  cases tree with
  | nil => exact absurd rfl nonempty
  | node color left name right =>
      cases side with
      | left => exact ⟨color, left, name, right, rfl⟩
      | right => exact ⟨color, right, name, left, rfl⟩

theorem mem_names_build
    {side : Side}
    {color : Color}
    {near far : Tree Name}
    {name other : Name} :
    other ∈ (build side color near name far).names ↔
      other = name ∨ other ∈ near.names ∨ other ∈ far.names := by
  cases side <;> simp only [build, names, List.mem_append, List.mem_cons] <;>
    tauto

theorem nodup_names_build
    {side : Side}
    {color : Color}
    {near far : Tree Name}
    {name : Name} :
    (build side color near name far).names.Nodup ↔
      near.names.Nodup ∧ far.names.Nodup ∧ name ∉ near.names ∧
        name ∉ far.names ∧ near.names.Disjoint far.names := by
  cases side with
  | left =>
      simp only [build, names, List.nodup_append', List.nodup_cons,
        List.disjoint_cons_right]
      tauto
  | right =>
      simp only [build, names, List.nodup_append', List.nodup_cons,
        List.disjoint_cons_right]
      constructor
      · rintro ⟨farNodup, ⟨notNear, nearNodup⟩, notFar, apart⟩
        exact ⟨nearNodup, farNodup, notNear, notFar,
          fun _ here there => apart there here⟩
      · rintro ⟨nearNodup, farNodup, notNear, notFar, apart⟩
        exact ⟨farNodup, ⟨notNear, nearNodup⟩, notFar,
          fun _ here there => apart there here⟩

/-- A rotation at the top keeps the names in their order. -/
theorem names_rotate
    (side : Side)
    (color lower painted lowered : Color)
    (near middle far : Tree Name)
    (name above : Name) :
    (build side painted near name
        (build side lowered middle above far)).names =
      (build side color (build side lower near name middle) above
        far).names := by
  cases side <;> simp [build, names]

theorem names_colors
    (side : Side)
    (color painted : Color)
    {near nearby far afar : Tree Name}
    (name : Name)
    (sameNear : nearby.names = near.names)
    (sameFar : afar.names = far.names) :
    (build side painted nearby name afar).names =
      (build side color near name far).names := by
  cases side <;> simp [build, names, sameNear, sameFar]

theorem depth_le_length
    (tree : Tree Name) :
    tree.depth ≤ tree.names.length := by
  induction tree with
  | nil => exact Nat.le_refl 0
  | node color left name right leftIh rightIh =>
      simp only [depth, names, List.length_append, List.length_cons]
      omega

end Tree

/-! ## The colours -/

/-- No red node has a red child, and every path down has as many blacks. -/
inductive Balanced {Name : Type} : Tree Name → Nat → Prop where
  | nil : Balanced .nil 0
  | red
      (near : Balanced left height)
      (far : Balanced right height)
      (nearBlack : left.color = .black)
      (farBlack : right.color = .black) :
      Balanced (.node .red left name right) height
  | black
      (near : Balanced left height)
      (far : Balanced right height) :
      Balanced (.node .black left name right) (height + 1)

section Balanced

variable
    {Name : Type}
    {side : Side}
    {color : Color}
    {near far : Tree Name}
    {name : Name}
    {height : Nat}

theorem balanced_red :
    Balanced (.build side .red near name far) height ↔
      Balanced near height ∧ Balanced far height ∧
        near.color = .black ∧ far.color = .black := by
  cases side with
  | left =>
      constructor
      · intro balanced
        cases balanced with
        | red near far nearBlack farBlack =>
            exact ⟨near, far, nearBlack, farBlack⟩
      · rintro ⟨near, far, nearBlack, farBlack⟩
        exact .red near far nearBlack farBlack
  | right =>
      constructor
      · intro balanced
        cases balanced with
        | red near far nearBlack farBlack =>
            exact ⟨far, near, farBlack, nearBlack⟩
      · rintro ⟨near, far, nearBlack, farBlack⟩
        exact .red far near farBlack nearBlack

theorem balanced_black :
    Balanced (.build side .black near name far) (height + 1) ↔
      Balanced near height ∧ Balanced far height := by
  cases side with
  | left =>
      constructor
      · intro balanced
        cases balanced with
        | black near far => exact ⟨near, far⟩
      · rintro ⟨near, far⟩
        exact .black near far
  | right =>
      constructor
      · intro balanced
        cases balanced with
        | black near far => exact ⟨far, near⟩
      · rintro ⟨near, far⟩
        exact .black far near

theorem not_balanced_black_zero :
    ¬ Balanced (.build side .black near name far) 0 := by
  intro balanced
  cases side with
  | left => cases balanced
  | right => cases balanced

/-- A tree which has a black on every path down is not empty. -/
theorem Balanced.ne_nil
    {tree : Tree Name}
    (balanced : Balanced tree (height + 1)) :
    tree ≠ .nil := by
  rintro rfl
  cases balanced

/-- The only child of a node is red, and the node is black. -/
theorem Balanced.only_child
    (balanced : Balanced (.build side color .nil name far) height)
    (nonempty : far ≠ .nil) :
    color = .black ∧ height = 1 ∧ far.color = .red ∧ Balanced far 0 := by
  have red : Balanced far 0 → far.color = .red := by
    intro flat
    cases flat with
    | nil => exact absurd rfl nonempty
    | red near far nearBlack farBlack => rfl
  cases color with
  | red =>
      rcases balanced_red.mp balanced with ⟨empty, flat, -, isBlack⟩
      cases empty
      rw [red flat] at isBlack
      cases isBlack
  | black =>
      cases height with
      | zero => exact absurd balanced not_balanced_black_zero
      | succ lower =>
          rcases balanced_black.mp balanced with ⟨empty, flat⟩
          cases empty
          exact ⟨rfl, rfl, red flat, flat⟩

/-- A red top may be painted black. -/
theorem Balanced.blacken
    {tree : Tree Name}
    (balanced : Balanced tree height)
    (red : tree.color = .red) :
    Balanced (tree.paint .black) (height + 1) := by
  cases balanced with
  | nil => cases red
  | red near far _ _ => exact .black near far
  | black near far => cases red

end Balanced

/-! ## Paths -/

/-- A node around the hole, with the subtree across from the hole. -/
structure Frame (Name : Type) where
  side : Side
  color : Color
  name : Name
  sibling : Tree Name

/-- The frames from the hole up to the root. -/
abbrev Path (Name : Type) := List (Frame Name)

namespace Path

variable {Name : Type}

def plug : Path Name → Tree Name → Tree Name
  | [], tree => tree
  | frame :: rest, tree =>
      plug rest
        (.build frame.side frame.color tree frame.name frame.sibling)

/-- The names to the left of the hole. -/
def before : Path Name → List Name
  | [] => []
  | frame :: rest =>
      before rest ++
        match frame.side with
        | .left => []
        | .right => frame.sibling.names ++ [frame.name]

/-- The names to the right of the hole. -/
def after : Path Name → List Name
  | [] => []
  | frame :: rest =>
      (match frame.side with
        | .left => frame.name :: frame.sibling.names
        | .right => []) ++
        after rest

/-- The names around the hole. -/
def names (path : Path Name) : List Name :=
  path.flatMap fun frame => frame.name :: frame.sibling.names

theorem names_plug
    (path : Path Name)
    (tree : Tree Name) :
    (path.plug tree).names = path.before ++ tree.names ++ path.after := by
  induction path generalizing tree with
  | nil => simp [plug, before, after]
  | cons frame rest ih =>
      rw [plug, ih]
      cases known : frame.side with
      | left => simp [before, after, known, Tree.build, Tree.names]
      | right => simp [before, after, known, Tree.build, Tree.names]

theorem before_of_left
    {path : Path Name}
    (sides : ∀ frame ∈ path, frame.side = .left) :
    path.before = [] := by
  induction path with
  | nil => rfl
  | cons frame rest ih =>
      have first := sides frame List.mem_cons_self
      simp only [before, first, List.append_nil]
      exact ih fun other member => sides other (List.mem_cons_of_mem _ member)

/-- Another subtree in the hole with the names in the same order. -/
theorem names_plug_congr
    (path : Path Name)
    {tree other : Tree Name}
    (same : tree.names = other.names) :
    (path.plug tree).names = (path.plug other).names := by
  rw [names_plug, names_plug, same]

theorem mem_names_plug
    {path : Path Name}
    {tree : Tree Name}
    {name : Name} :
    name ∈ (path.plug tree).names ↔
      name ∈ names path ∨ name ∈ tree.names := by
  induction path generalizing tree with
  | nil => simp [plug, names]
  | cons frame rest ih =>
      rw [plug, ih, Tree.mem_names_build]
      simp only [names, List.flatMap_cons, List.mem_append, List.mem_cons]
      tauto

theorem nodup_names_plug
    {path : Path Name}
    {tree : Tree Name} :
    (path.plug tree).names.Nodup ↔
      tree.names.Nodup ∧ (names path).Nodup ∧
        (names path).Disjoint tree.names := by
  induction path generalizing tree with
  | nil => simp [plug, names]
  | cons frame rest ih =>
      rw [plug, ih, Tree.nodup_names_build]
      simp only [names, List.flatMap_cons, List.cons_append,
        List.nodup_cons, List.nodup_append', List.mem_append,
        List.disjoint_cons_left, List.disjoint_append_left]
      constructor
      · rintro ⟨⟨nodup, sibling, fresh, unused, apart⟩, others, free⟩
        have free' :
            ∀ name ∈ List.flatMap
                (fun frame => frame.name :: frame.sibling.names) rest,
              name ≠ frame.name ∧ name ∉ tree.names ∧
                name ∉ frame.sibling.names := by
          intro name member
          have absent := List.disjoint_left.mp free member
          rw [Tree.mem_names_build] at absent
          tauto
        refine ⟨nodup, ⟨?_, sibling, others, ?_⟩, fresh,
          fun _ here there => apart there here, ?_⟩
        · rintro (inside | outside)
          · exact unused inside
          · exact (free' _ outside).1 rfl
        · exact List.disjoint_left.mpr fun name inside outside =>
            (free' name outside).2.2 inside
        · exact List.disjoint_left.mpr fun name outside inside =>
            (free' name outside).2.1 inside
      · rintro ⟨nodup, ⟨absent, sibling, others, inner⟩, fresh, apart, free⟩
        refine ⟨⟨nodup, sibling, fresh, fun inside =>
          absent (Or.inl inside), fun _ here there => apart there here⟩,
          others, ?_⟩
        apply List.disjoint_left.mpr
        intro name outside inside
        rcases Tree.mem_names_build.mp inside with rfl | near | far
        · exact absent (Or.inr outside)
        · exact List.disjoint_left.mp free outside near
        · exact List.disjoint_left.mp inner far outside

theorem plug_append
    (inner outer : Path Name)
    (tree : Tree Name) :
    Path.plug (inner ++ outer) tree = outer.plug (inner.plug tree) := by
  induction inner generalizing tree with
  | nil => rfl
  | cons frame rest ih =>
      rw [List.cons_append, plug, plug, ih]

theorem length_add_depth
    (path : Path Name)
    (tree : Tree Name) :
    path.length + tree.depth ≤ (path.plug tree).depth := by
  induction path generalizing tree with
  | nil => simp [plug]
  | cons frame rest ih =>
      have above :=
        ih (.build frame.side frame.color tree frame.name frame.sibling)
      have here :
          tree.depth + 1 ≤
            (Tree.build frame.side frame.color tree frame.name
              frame.sibling).depth := by
        cases frame.side with
        | left =>
            simp only [Tree.build, Tree.depth]
            omega
        | right =>
            simp only [Tree.build, Tree.depth]
            omega
      rw [plug, List.length_cons]
      omega

theorem names_append
    (inner outer : Path Name) :
    names (inner ++ outer) = names inner ++ names outer :=
  List.flatMap_append ..

/-- A balanced tree of the height and the colour fits into the hole. -/
def Accepts : Path Name → Nat → Color → Prop
  | [], _, color => color = .black
  | frame :: rest, height, color =>
      Balanced frame.sibling height ∧
        match frame.color with
        | .red =>
            color = .black ∧ frame.sibling.color = .black ∧
              Accepts rest height .red
        | .black => Accepts rest (height + 1) .black

/-- Where a red node fits, a black one does. -/
theorem Accepts.black
    {path : Path Name}
    {height : Nat}
    {color : Color}
    (accepts : Accepts path height color) :
    Accepts path height .black := by
  cases path with
  | nil => rfl
  | cons frame rest =>
      unfold Accepts at accepts ⊢
      refine ⟨accepts.1, ?_⟩
      cases known : frame.color with
      | red =>
          rw [known] at accepts
          exact ⟨rfl, accepts.2.2⟩
      | black =>
          rw [known] at accepts
          exact accepts.2

theorem Accepts.plug
    {path : Path Name}
    {height : Nat}
    {tree : Tree Name}
    (accepts : Accepts path height tree.color)
    (balanced : Balanced tree height) :
    (path.plug tree).color = .black ∧
      ∃ total, Balanced (path.plug tree) total := by
  induction path generalizing height tree with
  | nil => exact ⟨accepts, height, balanced⟩
  | cons frame rest ih =>
      rw [Path.plug]
      unfold Accepts at accepts
      cases known : frame.color with
      | red =>
          rw [known] at accepts
          rcases accepts with ⟨sibling, isBlack, siblingBlack, above⟩
          apply ih
          · rw [Tree.color_build]
            exact above
          · exact balanced_red.mpr
              ⟨balanced, sibling, isBlack, siblingBlack⟩
      | black =>
          rw [known] at accepts
          apply ih
          · rw [Tree.color_build]
            exact accepts.2
          · exact balanced_black.mpr ⟨balanced, accepts.1⟩

/-- Two black subtrees of the height of the hole fit under its node. -/
theorem Accepts.rebuild
    {frame : Frame Name}
    {path : Path Name}
    {height : Nat}
    (accepts : Accepts (frame :: path) height .black)
    {near far : Tree Name}
    (nearBalanced : Balanced near height)
    (farBalanced : Balanced far height)
    (nearBlack : near.color = .black)
    (farBlack : far.color = .black)
    (side : Side)
    (name : Name) :
    ∃ total,
      Balanced (.build side frame.color near name far) total ∧
        Accepts path total frame.color := by
  unfold Accepts at accepts
  cases known : frame.color with
  | red =>
      rw [known] at accepts
      exact ⟨height, balanced_red.mpr
        ⟨nearBalanced, farBalanced, nearBlack, farBlack⟩, accepts.2.2.2⟩
  | black =>
      rw [known] at accepts
      exact ⟨height + 1,
        balanced_black.mpr ⟨nearBalanced, farBalanced⟩, accepts.2⟩

/-- A subtree of a balanced tree fits where it is. -/
theorem accepts_of_plug
    {path : Path Name}
    {total : Nat}
    {tree : Tree Name}
    (isBlack : (path.plug tree).color = .black)
    (balanced : Balanced (path.plug tree) total) :
    ∃ height, Balanced tree height ∧ Accepts path height tree.color := by
  induction path generalizing tree with
  | nil => exact ⟨total, balanced, isBlack⟩
  | cons frame rest ih =>
      rw [Path.plug] at isBlack balanced
      rcases ih isBlack balanced with ⟨height, here, above⟩
      unfold Accepts
      cases known : frame.color with
      | red =>
          rw [known] at here above
          rcases balanced_red.mp here with
            ⟨near, far, nearBlack, farBlack⟩
          rw [Tree.color_build] at above
          exact ⟨height, near, far, nearBlack, farBlack, above⟩
      | black =>
          rw [known] at here above
          rw [Tree.color_build] at above
          cases height with
          | zero => exact absurd here not_balanced_black_zero
          | succ lower =>
              rcases balanced_black.mp here with ⟨near, far⟩
              exact ⟨lower, near, far, above⟩

/-- The name of a node on the path does not matter. -/
theorem Accepts.rename
    {inner outer : Path Name}
    {frame : Frame Name}
    {height : Nat}
    {color : Color}
    (accepts : Accepts (inner ++ frame :: outer) height color)
    (name : Name) :
    Accepts (inner ++ { frame with name := name } :: outer) height
      color := by
  induction inner generalizing height color with
  | nil => exact accepts
  | cons first rest ih =>
      rw [List.cons_append] at accepts ⊢
      unfold Accepts at accepts ⊢
      refine ⟨accepts.1, ?_⟩
      cases known : first.color with
      | red =>
          rw [known] at accepts
          exact ⟨accepts.2.1, accepts.2.2.1, ih accepts.2.2.2⟩
      | black =>
          rw [known] at accepts
          exact ih accepts.2

/-- The path to a name in a tree. -/
theorem exists_plug
    {tree : Tree Name}
    {name : Name}
    (member : name ∈ tree.names) :
    ∃ (path : Path Name) (color : Color) (left right : Tree Name),
      tree = path.plug (.node color left name right) := by
  have general :
      ∀ (outer : Path Name),
        ∃ (path : Path Name) (color : Color) (left right : Tree Name),
          outer.plug tree = path.plug (.node color left name right) := by
    induction tree with
    | nil => exact absurd member List.not_mem_nil
    | node color left top right leftIh rightIh =>
        intro outer
        rcases List.mem_append.mp member with inLeft | rest
        · exact leftIh inLeft (⟨.left, color, top, right⟩ :: outer)
        · rcases List.mem_cons.mp rest with rfl | inRight
          · exact ⟨outer, color, left, right, rfl⟩
          · exact rightIh inRight (⟨.right, color, top, left⟩ :: outer)
  exact general []

end Path

end FudanOS.Library.RedBlack
