import FudanOS.Library.RedBlack
import FudanOS.Library.Runs

/-!
# The red-black tree

`common/rbtree.c` on memory: every node has its two children and a word which
packs the address of its parent with its colour.  An access through `NULL`
stops the function, and so does a loop which has used up its fuel.

`__rb_insert_fix` and `__rb_erase_fix` write each of their cases twice, once
for either side.  The two texts are mirror images, and here they are one
definition with the side as a parameter: `.left` gives the first one.
-/

namespace FudanOS.Common.RbTree

open FudanOS.Library.RedBlack

/-- An address, or `NULL`. -/
abbrev Pointer := BitVec 64

inductive Fault where
  /-- An access through `NULL`. -/
  | null
  /-- A loop has not come to its end. -/
  | unfinished
  deriving DecidableEq

/-- `RB_RED` and `RB_BLACK` -/
def colorBit : Color → BitVec 64
  | .red => 0
  | .black => 1

/-- The fields of the nodes, and `root->rb_node`. -/
structure Memory where
  /-- `__rb_parent_color` -/
  parentColor : Pointer → BitVec 64
  /-- `rb_left` and `rb_right` -/
  child : Side → Pointer → Pointer
  /-- `root->rb_node` -/
  root : Pointer

namespace Memory

def setWord (node : Pointer) (word : BitVec 64) (memory : Memory) :
    Memory :=
  { memory with
    parentColor := Function.update memory.parentColor node word }

def setChild (side : Side) (node value : Pointer) (memory : Memory) :
    Memory :=
  { memory with
    child :=
      Function.update memory.child side
        (Function.update (memory.child side) node value) }

/-- `node->rb_left` or `node->rb_right` -/
def load (side : Side) (node : Pointer) (memory : Memory) :
    Except Fault Pointer :=
  if node = 0 then .error .null else .ok (memory.child side node)

/-- `node->rb_left = value` or `node->rb_right = value` -/
def store (side : Side) (node value : Pointer) (memory : Memory) :
    Except Fault Memory :=
  if node = 0 then .error .null
  else .ok (memory.setChild side node value)

/-- `node->__rb_parent_color` -/
def loadWord (node : Pointer) (memory : Memory) :
    Except Fault (BitVec 64) :=
  if node = 0 then .error .null else .ok (memory.parentColor node)

/-- `node->__rb_parent_color = word` -/
def storeWord (node : Pointer) (word : BitVec 64) (memory : Memory) :
    Except Fault Memory :=
  if node = 0 then .error .null else .ok (memory.setWord node word)

end Memory

/-- `__rb_parent(pc)` -/
def wordParent (word : BitVec 64) : Pointer :=
  word &&& ~~~3

/-- `__rb_is_black(pc)` -/
def wordIsBlack (word : BitVec 64) : Bool :=
  word &&& 1 ≠ 0

/-- `rb_parent(r)` -/
def rbParent (node : Pointer) (memory : Memory) : Except Fault Pointer := do
  return wordParent (← memory.loadWord node)

/-- `rb_is_black(rb)` -/
def rbIsBlack (node : Pointer) (memory : Memory) : Except Fault Bool := do
  return wordIsBlack (← memory.loadWord node)

/-- `rb_is_red(rb)` -/
def rbIsRed (node : Pointer) (memory : Memory) : Except Fault Bool := do
  return !wordIsBlack (← memory.loadWord node)

/-- `rb_set_black(rb)` -/
def rbSetBlack (node : Pointer) (memory : Memory) :
    Except Fault Memory := do
  memory.storeWord node ((← memory.loadWord node) ||| colorBit .black)

/-- `rb_red_parent(red)` -/
def rbRedParent (node : Pointer) (memory : Memory) :
    Except Fault Pointer :=
  memory.loadWord node

/-- `rb_set_parent(rb, p)` -/
def rbSetParent (node parent : Pointer) (memory : Memory) :
    Except Fault Memory := do
  memory.storeWord node (((← memory.loadWord node) &&& 1) ||| parent)

/-- `rb_set_parent_color(rb, p, color)` -/
def rbSetParentColor (node parent : Pointer) (color : Color)
    (memory : Memory) : Except Fault Memory :=
  memory.storeWord node (parent ||| colorBit color)

/-- `tmp && rb_is_red(tmp)` -/
def rbIsRedIf (node : Pointer) (memory : Memory) : Except Fault Bool :=
  if node ≠ 0 then rbIsRed node memory else .ok false

/-- `if (tmp) rb_set_parent_color(tmp, p, color);` -/
def rbSetParentColorIf (node parent : Pointer) (color : Color)
    (memory : Memory) : Except Fault Memory :=
  if node ≠ 0 then rbSetParentColor node parent color memory
  else .ok memory

/-- `if (tmp) rb_set_parent(tmp, p);` -/
def rbSetParentIf (node parent : Pointer) (memory : Memory) :
    Except Fault Memory :=
  if node ≠ 0 then rbSetParent node parent memory else .ok memory

/-- `__rb_change_child(old, new, parent, root)` -/
def rbChangeChild (old new parent : Pointer) (memory : Memory) :
    Except Fault Memory := do
  if parent ≠ 0 then
    if (← memory.load .left parent) = old then
      memory.store .left parent new
    else
      memory.store .right parent new
  else
    return { memory with root := new }

/-- `__rb_rotate_set_parents(old, new, root, color)` -/
def rbRotateSetParents (old new : Pointer) (color : Color)
    (memory : Memory) : Except Fault Memory := do
  let parent ← rbParent old memory
  let memory ← memory.storeWord new (← memory.loadWord old)
  let memory ← rbSetParentColor old new color memory
  rbChangeChild old new parent memory

/-! ## Insertion -/

/-- How an iteration of a loop ends. -/
inductive Turn where
  /-- `continue`, with the new values of `node` and `parent`. -/
  | again (node parent : Pointer)
  /-- `break` -/
  | done

/-- Case 1 of `__rb_insert_fix`: the uncle is red. -/
def insertRecolor (parent gparent uncle : Pointer) (memory : Memory) :
    Except Fault (Turn × Memory) := do
  let memory ← rbSetParentColor uncle gparent .black memory
  let memory ← rbSetParentColor parent gparent .black memory
  let above ← rbParent gparent memory
  let memory ← rbSetParentColor gparent above .red memory
  return (.again gparent above, memory)

/-- Case 2: the node and its parent change places. -/
def insertInner (side : Side) (node parent : Pointer) (memory : Memory) :
    Except Fault Memory := do
  let tmp ← memory.load side node
  let memory ← memory.store side.other parent tmp
  let memory ← rbSetParentColorIf tmp parent .black memory
  let memory ← memory.store side node parent
  rbSetParentColor parent node .red memory

/-- Case 3: the parent takes the place of the grandparent. -/
def insertOuter (side : Side) (parent gparent tmp : Pointer)
    (memory : Memory) : Except Fault Memory := do
  let memory ← memory.store side gparent tmp
  let memory ← rbSetParentColorIf tmp gparent .black memory
  let memory ← memory.store side.other parent gparent
  rbRotateSetParents gparent parent .red memory

/-- The body of the loop, when the parent is on a side of the grandparent. -/
def insertFixOn (side : Side) (node parent gparent : Pointer)
    (memory : Memory) : Except Fault (Turn × Memory) := do
  let uncle ← memory.load side.other gparent
  if ← rbIsRedIf uncle memory then
    insertRecolor parent gparent uncle memory
  else
    let tmp ← memory.load side.other parent
    if node = tmp then
      let memory ← insertInner side node parent memory
      let tmp ← memory.load side.other node
      return (.done, ← insertOuter side node gparent tmp memory)
    else
      return (.done, ← insertOuter side parent gparent tmp memory)

/-- `__rb_insert_fix(node, root)`, given `rb_red_parent(node)`. -/
def rbInsertFix : Nat → Pointer → Pointer → Memory → Except Fault Memory
  | 0, _, _, _ => .error .unfinished
  | fuel + 1, node, parent, memory =>
      if parent = 0 then do
        let memory ← rbSetParentColor node 0 .black memory
        return { memory with root := node }
      else do
        if ← rbIsBlack parent memory then
          return memory
        else
          let gparent ← rbRedParent parent memory
          let tmp ← memory.load .right gparent
          let side := if parent ≠ tmp then Side.left else Side.right
          match ← insertFixOn side node parent gparent memory with
          | (.done, memory) => return memory
          | (.again node parent, memory) =>
              rbInsertFix fuel node parent memory

/-- The loop of `_rb_insert`: nothing when it returns -1. -/
def insertDescend (cmp : Pointer → Pointer → Bool) (node : Pointer) :
    Nat → Pointer → Memory → Except Fault (Option Memory)
  | 0, _, _ => .error .unfinished
  | fuel + 1, nw, memory =>
      if nw = 0 then
        .ok (some memory)
      else
        let go (side : Side) : Except Fault (Option Memory) := do
          let next ← memory.load side nw
          if next = 0 then
            let memory ← memory.store side nw node
            let memory ← memory.storeWord node nw
            insertDescend cmp node fuel next memory
          else
            insertDescend cmp node fuel next memory
        if cmp node nw then go .left
        else if cmp nw node then go .right
        else .ok none

/-- `_rb_insert(node, rt, cmp)` -/
def rbInsert (fuel : Nat) (cmp : Pointer → Pointer → Bool)
    (node : Pointer) (memory : Memory) : Except Fault (Int × Memory) := do
  let memory ← memory.store .right node 0
  let memory ← memory.store .left node 0
  let memory ← memory.storeWord node 0
  match ← insertDescend cmp node fuel memory.root memory with
  | none => return (-1, memory)
  | some memory =>
      let parent ← rbRedParent node memory
      return (0, ← rbInsertFix fuel node parent memory)

/-! ## Erasure -/

/-- The loop of `__rb_erase` which looks for `successor` and its parent. -/
def successorLoop : Nat → Pointer → Pointer → Memory →
    Except Fault (Pointer × Pointer)
  | 0, _, _, _ => .error .unfinished
  | fuel + 1, parent, successor, memory => do
      let tmp ← memory.load .left successor
      if tmp ≠ 0 then
        successorLoop fuel successor tmp memory
      else
        return (parent, successor)

/-- `successor` takes the place of `node`, which has two children. -/
def eraseReplace (node parent successor child2 : Pointer)
    (memory : Memory) : Except Fault (Pointer × Memory) := do
  let tmp ← memory.load .left node
  let memory ← memory.store .left successor tmp
  let memory ← rbSetParent tmp successor memory
  let pc ← memory.loadWord node
  let memory ← rbChangeChild node successor (wordParent pc) memory
  if child2 ≠ 0 then
    let memory ← memory.storeWord successor pc
    let memory ← rbSetParentColor child2 parent .black memory
    return (0, memory)
  else
    let pc2 ← memory.loadWord successor
    let memory ← memory.storeWord successor pc
    return (if wordIsBlack pc2 then parent else 0, memory)

/-- `__rb_erase(node, root)`, which gives `rebalance`. -/
def rbEraseNode (fuel : Nat) (node : Pointer) (memory : Memory) :
    Except Fault (Pointer × Memory) := do
  let child ← memory.load .right node
  let tmp ← memory.load .left node
  if tmp = 0 then
    let pc ← memory.loadWord node
    let memory ← rbChangeChild node child (wordParent pc) memory
    if child ≠ 0 then
      return (0, ← memory.storeWord child pc)
    else
      return (if wordIsBlack pc then wordParent pc else 0, memory)
  else if child = 0 then
    let pc ← memory.loadWord node
    let memory ← memory.storeWord tmp pc
    return (0, ← rbChangeChild node tmp (wordParent pc) memory)
  else
    let next ← memory.load .left child
    if next = 0 then
      let child2 ← memory.load .right child
      eraseReplace node child child child2 memory
    else
      let (parent, successor) ← successorLoop fuel child next memory
      let child2 ← memory.load .right successor
      let memory ← memory.store .left parent child2
      let memory ← memory.store .right successor child
      let memory ← rbSetParent child successor memory
      eraseReplace node parent successor child2 memory

/-- Case 1 of `__rb_erase_fix`: the sibling is red. -/
def eraseRotate (side : Side) (parent sibling : Pointer)
    (memory : Memory) : Except Fault (Pointer × Memory) := do
  let tmp1 ← memory.load side sibling
  let memory ← memory.store side.other parent tmp1
  let memory ← rbSetParentColor tmp1 parent .black memory
  let memory ← memory.store side sibling parent
  let memory ← rbRotateSetParents parent sibling .red memory
  return (tmp1, memory)

/-- Case 2: the sibling and its children are black. -/
def eraseRecolor (parent sibling : Pointer) (memory : Memory) :
    Except Fault (Turn × Memory) := do
  let memory ← rbSetParentColor sibling parent .red memory
  if ← rbIsRed parent memory then
    return (.done, ← rbSetBlack parent memory)
  else
    let above ← rbParent parent memory
    if above ≠ 0 then
      return (.again parent above, memory)
    else
      return (.done, memory)

/-- Case 3: the near child of the sibling is red. -/
def eraseInner (side : Side) (parent sibling tmp2 : Pointer)
    (memory : Memory) : Except Fault Memory := do
  let tmp1 ← memory.load side.other tmp2
  let memory ← memory.store side sibling tmp1
  let memory ← rbSetParentColorIf tmp1 sibling .black memory
  let memory ← memory.store side.other tmp2 sibling
  memory.store side.other parent tmp2

/-- Case 4: the far child of the sibling is red, or `tmp1` is. -/
def eraseOuter (side : Side) (parent sibling tmp1 : Pointer)
    (memory : Memory) : Except Fault Memory := do
  let tmp2 ← memory.load side sibling
  let memory ← memory.store side.other parent tmp2
  let memory ← rbSetParentIf tmp2 parent memory
  let memory ← memory.store side sibling parent
  let memory ← rbSetParentColor tmp1 sibling .black memory
  rbRotateSetParents parent sibling .black memory

/-- The body of the loop, from case 2 on. -/
def eraseFixBlack (side : Side) (parent sibling : Pointer)
    (memory : Memory) : Except Fault (Turn × Memory) := do
  let tmp1 ← memory.load side.other sibling
  if ← rbIsRedIf tmp1 memory then
    return (.done, ← eraseOuter side parent sibling tmp1 memory)
  else
    let tmp2 ← memory.load side sibling
    if ← rbIsRedIf tmp2 memory then
      let memory ← eraseInner side parent sibling tmp2 memory
      return (.done, ← eraseOuter side parent tmp2 sibling memory)
    else
      eraseRecolor parent sibling memory

/-- The body of the loop, when the node is on a side of its parent. -/
def eraseFixOn (side : Side) (parent : Pointer) (memory : Memory) :
    Except Fault (Turn × Memory) := do
  let sibling ← memory.load side.other parent
  if ← rbIsRed sibling memory then
    let (sibling, memory) ← eraseRotate side parent sibling memory
    eraseFixBlack side parent sibling memory
  else
    eraseFixBlack side parent sibling memory

/-- `__rb_erase_fix(parent, root)`, given `node`. -/
def rbEraseFix : Nat → Pointer → Pointer → Memory → Except Fault Memory
  | 0, _, _, _ => .error .unfinished
  | fuel + 1, node, parent, memory => do
      let sibling ← memory.load .right parent
      let side := if node ≠ sibling then Side.left else Side.right
      match ← eraseFixOn side parent memory with
      | (.done, memory) => return memory
      | (.again node parent, memory) => rbEraseFix fuel node parent memory

/-- `_rb_erase(node, root)` -/
def rbErase (fuel : Nat) (node : Pointer) (memory : Memory) :
    Except Fault Memory := do
  let (rebalance, memory) ← rbEraseNode fuel node memory
  if rebalance ≠ 0 then
    rbEraseFix fuel 0 rebalance memory
  else
    return memory

/-! ## Lookup -/

/-- The loop of `_rb_lookup`. -/
def lookupFrom (cmp : Pointer → Pointer → Bool) (node : Pointer)
    (memory : Memory) : Nat → Pointer → Except Fault Pointer
  | 0, _ => .error .unfinished
  | fuel + 1, nw =>
      if nw = 0 then
        .ok 0
      else if cmp node nw then do
        lookupFrom cmp node memory fuel (← memory.load .left nw)
      else if cmp nw node then do
        lookupFrom cmp node memory fuel (← memory.load .right nw)
      else
        .ok nw

/-- `_rb_lookup(node, rt, cmp)` -/
def rbLookup (fuel : Nat) (cmp : Pointer → Pointer → Bool)
    (node : Pointer) (memory : Memory) : Except Fault Pointer :=
  lookupFrom cmp node memory fuel memory.root

/-- The loop of `_rb_first`. -/
def firstFrom (memory : Memory) : Nat → Pointer → Except Fault Pointer
  | 0, _ => .error .unfinished
  | fuel + 1, n => do
      let next ← memory.load .left n
      if next ≠ 0 then
        firstFrom memory fuel next
      else
        return n

/-- `_rb_first(root)` -/
def rbFirst (fuel : Nat) (memory : Memory) : Except Fault Pointer :=
  if memory.root = 0 then .ok 0 else firstFrom memory fuel memory.root

end FudanOS.Common.RbTree
