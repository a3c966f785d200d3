import Mathlib.Algebra.Group.Nat.Defs
import Mathlib.Algebra.GroupWithZero.Nat
import Mathlib.Data.List.Basic
import Mathlib.Data.List.Infix
import Mathlib.Logic.Function.Basic

/-!
# The kernel heap of `kernel/mem.c`

`kalloc` and `kfree` keep one singly linked list of nodes for each CPU.  A
list is modelled by the sequence of its nodes, so the `next` pointer of a node
is its successor in the sequence.  Each call runs under `memlock` and is one
step.

The fields `size` and `used` are `u16`.  Every value stored into them, and the
cast of the requested size, goes through `store`: the source stores modulo
`2 ^ 16`, and the same code with the identity in that place is the
computation without wrap-around.  Addresses stay below `P2K(PHYSTOP)`, so
`u64` address arithmetic does not wrap.
-/

namespace FudanOS.Kernel.Heap

/-- `PAGE_SIZE` -/
abbrev pageSize : Nat := 4096

/-- `sizeof(node)`: the header in front of every payload. -/
abbrev sizeofNode : Nat := 16

/-- `PAGE_BASE(addr)` -/
def pageBase (address : Nat) : Nat :=
  address / pageSize * pageSize

/-- A node header at `address`. -/
structure Node where
  address : Nat
  size : Nat
  used : Nat
  free : Bool
  deriving DecidableEq

/-- Conversion to `u16`. -/
def toU16 (value : Nat) : Nat :=
  value % 2 ^ 16

/-- Absorb the free nodes which follow `head` in the same page. -/
def merge (store : Nat → Nat) (head : Node) :
    List Node → Node × List Node
  | [] => (head, [])
  | next :: rest =>
      if next.free = true ∧ pageBase head.address = pageBase next.address then
        merge store
          { head with size := store (head.size + next.size + sizeofNode) }
          rest
      else
        (head, next :: rest)

/-- `(temp / alignment + (temp % alignment != 0)) * alignment` -/
def alignUp (alignment address : Nat) : Nat :=
  (address / alignment + if address % alignment ≠ 0 then 1 else 0) *
    alignment

/-- The node in front after a split at `temp`. -/
def splitFront (store : Nat → Nat) (head : Node) (temp : Nat) : Node :=
  { head with size := store (temp - head.address - sizeofNode) }

/-- The free node created by a split; its field `used` is not written. -/
def splitBack (store : Nat → Nat) (head : Node) (temp : Nat) : Node where
  address := temp
  size :=
    store
      (head.size - (temp - head.address - sizeofNode) - sizeofNode)
  used := 0
  free := true

/-- `h->used = size; h->free = 0` -/
def take (store : Nat → Nat) (size : Nat) (head : Node) : Node :=
  { head with used := store size, free := false }

theorem merge_suffix
    (store : Nat → Nat) (head : Node) (rest : List Node) :
    (merge store head rest).2 <:+ rest := by
  induction rest generalizing head with
  | nil => simp [merge]
  | cons next rest ih =>
      rw [merge]
      split_ifs
      · exact (ih _).trans (List.suffix_cons next rest)
      · exact List.suffix_refl _

/-- The nodes still to be visited, used ones counting for a split. -/
def remaining (nodes : List Node) : Nat :=
  (nodes.map fun node => if node.free then 1 else 2).sum

theorem remaining_suffix
    {front back : List Node}
    (suffix : front <:+ back) :
    remaining front ≤ remaining back := by
  rcases suffix with ⟨dropped, rfl⟩
  simp [remaining]

/-- `temp` for a used node: the aligned end of its payload. -/
def usedTemp (alignment : Nat) (node : Node) : Nat :=
  alignUp alignment (node.address + sizeofNode + node.used)

/-- `temp` for a free node: the aligned start of its payload. -/
def freeTemp (alignment : Nat) (node : Node) : Nat :=
  alignUp alignment (node.address + sizeofNode)

/-- A used node has room for a header behind its aligned payload. -/
def Splits (alignment : Nat) (node : Node) : Prop :=
  usedTemp alignment node - node.address - sizeofNode + sizeofNode ≤
    node.size

/-- A free node at an aligned address is large enough. -/
def Suits (store : Nat → Nat) (alignment size : Nat) (node : Node) : Prop :=
  node.address % alignment = 0 ∧ store size ≤ node.size

/-- A free node at an unaligned address is large enough for a split. -/
def SuitsSplit
    (store : Nat → Nat)
    (alignment size : Nat)
    (node : Node) : Prop :=
  node.address % alignment ≠ 0 ∧
    store size +
        (freeTemp alignment node - node.address - sizeofNode) +
        sizeofNode ≤
      node.size

instance (alignment : Nat) (node : Node) :
    Decidable (Splits alignment node) :=
  inferInstanceAs (Decidable (_ ≤ _))

instance (store : Nat → Nat) (alignment size : Nat) (node : Node) :
    Decidable (Suits store alignment size node) :=
  inferInstanceAs (Decidable (_ ∧ _))

instance (store : Nat → Nat) (alignment size : Nat) (node : Node) :
    Decidable (SuitsSplit store alignment size node) :=
  inferInstanceAs (Decidable (_ ∧ _))

/-- Put a visited node in front of what the search leaves behind it. -/
def visited (node : Node) (later : List Node × Option Nat) :
    List Node × Option Nat :=
  (node :: later.1, later.2)

/--
The search loop of `kalloc` from the first node of a list on: the nodes it
leaves behind and the address of the node it takes, if any.
-/
def search (store : Nat → Nat) (alignment size : Nat) :
    List Node → List Node × Option Nat
  | [] => ([], none)
  | head :: rest =>
      if head.free = true then
        if Suits store alignment size (merge store head rest).1 then
          (take store size (merge store head rest).1 ::
              (merge store head rest).2,
            some (merge store head rest).1.address)
        else if
          SuitsSplit store alignment size (merge store head rest).1 then
          (splitFront store (merge store head rest).1
                (freeTemp alignment (merge store head rest).1) ::
              take store size
                (splitBack store (merge store head rest).1
                  (freeTemp alignment (merge store head rest).1)) ::
              (merge store head rest).2,
            some (freeTemp alignment (merge store head rest).1))
        else
          visited (merge store head rest).1
            (search store alignment size (merge store head rest).2)
      else if Splits alignment head then
        visited (splitFront store head (usedTemp alignment head))
          (search store alignment size
            (splitBack store head (usedTemp alignment head) :: rest))
      else
        visited head (search store alignment size rest)
termination_by nodes => remaining nodes
decreasing_by
  all_goals simp only [remaining, List.map_cons, List.sum_cons]
  · have shorter := remaining_suffix (merge_suffix store head rest)
    simp only [remaining] at shorter
    split_ifs
    omega
  · simp_all [splitBack]
  · split_ifs
    omega

section SearchCases

variable
    {store : Nat → Nat}
    {alignment size : Nat}
    {head node : Node}
    {rest tail : List Node}

theorem search_taking
    (isFree : head.free = true)
    (merged : merge store head rest = (node, tail))
    (suits : Suits store alignment size node) :
    search store alignment size (head :: rest) =
      (take store size node :: tail, some node.address) := by
  rw [search, if_pos isFree, merged, if_pos suits]

theorem search_splitting
    (isFree : head.free = true)
    (merged : merge store head rest = (node, tail))
    (misfits : ¬ Suits store alignment size node)
    (suits : SuitsSplit store alignment size node) :
    search store alignment size (head :: rest) =
      (splitFront store node (freeTemp alignment node) ::
          take store size (splitBack store node (freeTemp alignment node)) ::
          tail,
        some (freeTemp alignment node)) := by
  rw [search, if_pos isFree, merged, if_neg misfits, if_pos suits]

theorem search_passing
    (isFree : head.free = true)
    (merged : merge store head rest = (node, tail))
    (misfits : ¬ Suits store alignment size node)
    (tight : ¬ SuitsSplit store alignment size node) :
    search store alignment size (head :: rest) =
      visited node (search store alignment size tail) := by
  rw [search, if_pos isFree, merged, if_neg misfits, if_neg tight]

theorem search_used_split
    (isUsed : ¬ head.free = true)
    (room : Splits alignment head) :
    search store alignment size (head :: rest) =
      visited (splitFront store head (usedTemp alignment head))
        (search store alignment size
          (splitBack store head (usedTemp alignment head) :: rest)) := by
  rw [search, if_neg isUsed, if_pos room]

theorem search_used_whole
    (isUsed : ¬ head.free = true)
    (tight : ¬ Splits alignment head) :
    search store alignment size (head :: rest) =
      visited head (search store alignment size rest) := by
  rw [search, if_neg isUsed, if_neg tight]

end SearchCases

/-- The lists `free[cpuid()]`. -/
abbrev Lists := Fin 4 → List Node

/-- The alignment which `kalloc` chooses for a size. -/
def alignmentOf (size : Nat) : Nat :=
  if size % 8 = 0 then 8 else 4

/-- A fresh page as one free node. -/
def newPage (store : Nat → Nat) (page : Nat) : Node where
  address := page
  size := store (pageSize - sizeofNode)
  used := 0
  free := true

/-- What one call of `kalloc` leaves behind. -/
structure Allocation where
  lists : Lists
  pointer : Nat
  fetched : Bool

/--
`kalloc(size)` on a CPU, with the page which `kalloc_page` returns if it is
called; `fetched` records whether it is.
-/
def kallocWith
    (store : Nat → Nat)
    (lists : Lists)
    (cpu : Fin 4)
    (size page : Nat) : Allocation :=
  let found := search store (alignmentOf size) size (lists cpu)
  match found.2 with
  | some address =>
      { lists := Function.update lists cpu found.1
        pointer := address + sizeofNode
        fetched := false }
  | none =>
      { lists :=
          Function.update lists cpu
            (take store size (newPage store page) :: found.1)
        pointer := page + sizeofNode
        fetched := true }

/-- Mark the node at `address` free after merging what follows it. -/
def freeNode (store : Nat → Nat) (address : Nat) :
    List Node → List Node
  | [] => []
  | head :: rest =>
      if head.address = address then
        let merged := merge store head rest
        { merged.1 with free := true } :: merged.2
      else
        head :: freeNode store address rest

/-- `kfree(ptr)`: the node in front of `ptr` lies on one of the lists. -/
def kfreeWith (store : Nat → Nat) (lists : Lists) (pointer : Nat) : Lists :=
  fun cpu => freeNode store (pointer - sizeofNode) (lists cpu)

/-- `kalloc` with its `u16` stores. -/
def kalloc : Lists → Fin 4 → Nat → Nat → Allocation :=
  kallocWith toU16

/-- `kfree` with its `u16` stores. -/
def kfree : Lists → Nat → Lists :=
  kfreeWith toU16

end FudanOS.Kernel.Heap
