import FudanOS.Kernel.HeapTiling
import FudanOS.Library.Runs

/-!
# Safety of the kernel heap

The heap runs through calls of `kalloc` and `kfree` from any CPUs.  The state
carries, beside the lists of the source, the pages which `kalloc_page` handed
to each CPU and the allocations which the callers hold.  `Valid` ties the
three together: every list is laid out over the pages of its CPU, and the live
allocations are exactly the used nodes.
-/

namespace FudanOS.Kernel.HeapSafety

open FudanOS.Kernel.Heap
open FudanOS.Kernel.HeapTiling
open FudanOS.Library.Runs

/-- The heap with the pages fetched so far and the live allocations. -/
structure Heap where
  lists : Lists
  pages : Fin 4 → List Nat
  live : List (Nat × Nat)

/-- The heap before the first call. -/
def Heap.init : Heap where
  lists := fun _ => []
  pages := fun _ => []
  live := []

/--
A call.  The page of a `kalloc` is the one `kalloc_page` would return during
that call.
-/
inductive Call where
  | kalloc (cpu : Fin 4) (size page : Nat)
  | kfree (pointer : Nat)

/-- The effect of one call, which is atomic under `memlock`. -/
def call (heap : Heap) : Call → Heap
  | .kalloc cpu size page =>
      let allocation := kalloc heap.lists cpu size page
      { lists := allocation.lists
        pages :=
          if allocation.fetched then
            Function.update heap.pages cpu (page :: heap.pages cpu)
          else
            heap.pages
        live := (allocation.pointer, size) :: heap.live }
  | .kfree pointer =>
      { heap with
        lists := kfree heap.lists pointer
        live := heap.live.filter fun allocation => allocation.1 ≠ pointer }

/-- Requests fit in a page, pages are fresh, and freed pointers are live. -/
def Permitted (heap : Heap) : Call → Prop
  | .kalloc _ size page =>
      size ≤ pageSize - sizeofNode ∧
        page % pageSize = 0 ∧ ∀ cpu, page ∉ heap.pages cpu
  | .kfree pointer => pointer ∈ heap.live.map Prod.fst

/-- The calls of a run, in any order and from any CPUs. -/
abbrev Runs (calls : List Call) (heap : Heap) : Prop :=
  Run (fun source label target => call source label = target) Permitted
    Heap.init calls heap

/-- The invariant of the heap. -/
structure Valid (heap : Heap) : Prop where
  laid : ∀ cpu, Laid none (heap.pages cpu) (heap.lists cpu)
  nodup : ∀ cpu, (heap.pages cpu).Nodup
  disjoint :
    ∀ cpu other page,
      page ∈ heap.pages cpu → page ∈ heap.pages other → cpu = other
  live :
    ∀ pointer size,
      (pointer, size) ∈ heap.live ↔
        ∃ cpu, (pointer, size) ∈ allocated (heap.lists cpu)
  pointers : (heap.live.map Prod.fst).Nodup
  aligned :
    ∀ pointer size,
      (pointer, size) ∈ heap.live → pointer % alignmentOf size = 0

theorem exactStore_toU16 : ExactStore toU16 := by
  intro value small
  exact Nat.mod_eq_of_lt small

theorem alignmentOf_known (size : Nat) :
    alignmentOf size = 4 ∨ alignmentOf size = 8 := by
  unfold alignmentOf
  split_ifs
  · exact Or.inr rfl
  · exact Or.inl rfl

theorem Valid.separate
    {heap : Heap}
    (valid : Valid heap)
    (cpu : Fin 4) :
    Separate none (heap.pages cpu) where
  nodup := valid.nodup cpu
  present := by simp

/-- In a valid heap no store of `kalloc` wraps. -/
theorem Valid.kalloc_exact
    {heap : Heap}
    (valid : Valid heap)
    (cpu : Fin 4)
    {size : Nat}
    (small : size ≤ pageSize - sizeofNode)
    (page : Nat) :
    kalloc heap.lists cpu size page =
      kallocWith id heap.lists cpu size page := by
  have searched :=
    search_exact exactStore_toU16 (alignmentOf_known size) small
      (heap.lists cpu) (valid.separate cpu) (valid.laid cpu)
  have takeExact :
      take toU16 size (newPage toU16 page) = take id size (newPage id page) := by
    have sizeExact : toU16 size = size := by
      apply exactStore_toU16
      simp only [pageSize, sizeofNode] at small
      omega
    have pageExact : toU16 (pageSize - sizeofNode) = pageSize - sizeofNode := by
      rfl
    simp only [take, newPage, sizeExact, pageExact, id_eq]
  simp only [kalloc, kallocWith, searched, takeExact]

/-- In a valid heap no store of `kfree` wraps. -/
theorem Valid.kfree_exact
    {heap : Heap}
    (valid : Valid heap)
    (pointer : Nat) :
    kfree heap.lists pointer = kfreeWith id heap.lists pointer := by
  funext cpu
  exact freeNode_exact exactStore_toU16 _ _ (valid.separate cpu)
    (valid.laid cpu)

/-- A fresh page, taken whole by the request which fetched it. -/
theorem Laid.fetch
    {pages : List Nat}
    {nodes : List Node}
    {size page : Nat}
    (laid : Laid none pages nodes)
    (small : size ≤ pageSize - sizeofNode)
    (aligned : page % pageSize = 0) :
    Laid none (page :: pages) (take id size (newPage id page) :: nodes) := by
  have base := pageBase_of_aligned aligned
  have ends :
      stop (take id size (newPage id page)) =
        pageBase (take id size (newPage id page)).address + pageSize := by
    show page + sizeofNode + (pageSize - sizeofNode) = pageBase page + pageSize
    rw [base]
    simp only [pageSize, sizeofNode]
  refine ⟨pages, Or.inr ⟨rfl, rfl, aligned⟩, ⟨?_, Nat.le_of_eq ends, ?_⟩, ?_⟩
  · show page % 4 = 0
    simp only [pageSize] at aligned
    omega
  · exact fun _ => small
  · rw [after, if_pos ends]
    exact laid

/-- What a call of `kalloc` does to a valid heap. -/
structure Grows
    (heap : Heap)
    (cpu : Fin 4)
    (size page : Nat)
    (allocation : Allocation) : Prop where
  others :
    ∀ other, other ≠ cpu → allocation.lists other = heap.lists other
  laid :
    Laid none
      (if allocation.fetched then page :: heap.pages cpu
        else heap.pages cpu)
      (allocation.lists cpu)
  perm :
    (allocated (allocation.lists cpu)).Perm
      ((allocation.pointer, size) :: allocated (heap.lists cpu))
  aligned : allocation.pointer % alignmentOf size = 0

theorem Valid.kalloc_grows
    {heap : Heap}
    (valid : Valid heap)
    (cpu : Fin 4)
    {size page : Nat}
    (small : size ≤ pageSize - sizeofNode)
    (fresh : page % pageSize = 0) :
    Grows heap cpu size page (kallocWith id heap.lists cpu size page) := by
  have searched :=
    search_spec (alignmentOf_known size) size (heap.lists cpu)
      (valid.separate cpu) (valid.laid cpu)
  unfold kallocWith
  cases found :
      (search id (alignmentOf size) size (heap.lists cpu)).2 with
  | none =>
      simp only [found]
      refine ⟨?_, ?_, ?_, ?_⟩
      · intro other different
        exact Function.update_of_ne different _ _
      · simp only [if_true, Function.update_self]
        exact Laid.fetch searched.laid small fresh
      · simp only [Function.update_self, allocated, take, newPage,
          Bool.false_eq_true, if_false, id_eq, searched.kept found]
        exact List.Perm.refl _
      · simp only [pageSize, sizeofNode] at *
        rcases alignmentOf_known size with known | known
        · rw [known]
          omega
        · rw [known]
          omega
  | some address =>
      rcases searched.taken address found with ⟨aligned, perm⟩
      simp only [found]
      refine ⟨?_, ?_, ?_, ?_⟩
      · intro other different
        exact Function.update_of_ne different _ _
      · simp only [Bool.false_eq_true, if_false, Function.update_self]
        exact searched.laid
      · simp only [Function.update_self]
        exact perm
      · simp only [sizeofNode]
        rcases alignmentOf_known size with known | known
        · rw [known] at aligned ⊢
          omega
        · rw [known] at aligned ⊢
          omega

/-- Nodes of a valid heap occupy disjoint addresses. -/
theorem Valid.apart
    {heap : Heap}
    (valid : Valid heap)
    {cpu other : Fin 4}
    {left right : Node}
    (leftMember : left ∈ heap.lists cpu)
    (rightMember : right ∈ heap.lists other)
    (different : left.address ≠ right.address) :
    stop left ≤ right.address ∨ stop right ≤ left.address := by
  by_cases same : cpu = other
  · subst same
    have pairwise := Laid.apart (valid.separate cpu) (valid.laid cpu)
    have symmetric :
        Std.Symm fun left right : Node =>
          stop left ≤ right.address ∨ stop right ≤ left.address :=
      ⟨fun _ _ disjoint => disjoint.symm⟩
    have distinct : left ≠ right := by
      intro equal
      exact different (congrArg Node.address equal)
    exact pairwise.forall leftMember rightMember distinct
  · apply apart_of_pageBase_ne
      (Laid.fits (valid.laid cpu) leftMember)
      (Laid.fits (valid.laid other) rightMember)
    intro samePage
    have leftPage := Laid.mem_pages (valid.laid cpu) leftMember
    have rightPage := Laid.mem_pages (valid.laid other) rightMember
    rw [← samePage] at rightPage
    exact same (valid.disjoint cpu other _ leftPage rightPage)

/-- The node of a live allocation. -/
theorem Valid.node
    {heap : Heap}
    (valid : Valid heap)
    {pointer size : Nat}
    (live : (pointer, size) ∈ heap.live) :
    ∃ cpu, ∃ node ∈ heap.lists cpu,
      node.free = false ∧
        pointer = node.address + sizeofNode ∧ size = node.used := by
  rcases (valid.live pointer size).mp live with ⟨cpu, member⟩
  exact ⟨cpu, mem_allocated.mp member⟩

theorem valid_init : Valid Heap.init where
  laid := fun _ => ⟨rfl, rfl⟩
  nodup := fun _ => List.nodup_nil
  disjoint := by simp [Heap.init]
  live := by simp [Heap.init, allocated]
  pointers := List.nodup_nil
  aligned := by simp [Heap.init]

/-- The pointers on a laid list are distinct. -/
theorem Laid.pointers_nodup
    {start : Option Nat}
    {pages : List Nat}
    {nodes : List Node}
    (separate : Separate start pages)
    (laid : Laid start pages nodes) :
    ((allocated nodes).map Prod.fst).Nodup := by
  induction nodes generalizing start pages with
  | nil => exact List.nodup_nil
  | cons node rest ih =>
      rcases laid with ⟨later, enters, fits, restLaid⟩
      have tail := ih ((enters.separate separate).after fits) restLaid
      rw [allocated]
      split_ifs
      · exact tail
      · refine List.nodup_cons.mpr ⟨?_, tail⟩
        intro member
        rcases List.mem_map.mp member with ⟨⟨pointer, size⟩, inRest, same⟩
        rcases mem_allocated.mp inRest with ⟨other, otherMember, _, rfl, _⟩
        have different :=
          Laid.address_ne separate ⟨later, enters, fits, restLaid⟩ otherMember
        simp only at same
        omega

/-- The pages of a CPU after an allocation. -/
def pagesAfter (heap : Heap) (cpu : Fin 4) (page : Nat) (fetched : Bool) :
    List Nat :=
  if fetched then page :: heap.pages cpu else heap.pages cpu

theorem pagesAfter_nodup
    {heap : Heap}
    (valid : Valid heap)
    {cpu : Fin 4}
    {page : Nat}
    (fresh : ∀ other, page ∉ heap.pages other)
    (fetched : Bool) :
    (pagesAfter heap cpu page fetched).Nodup := by
  cases fetched with
  | false => exact valid.nodup cpu
  | true => exact List.nodup_cons.mpr ⟨fresh cpu, valid.nodup cpu⟩

/-- The pages of a CPU stay apart from the pages of the others. -/
theorem pagesAfter_disjoint
    {heap : Heap}
    (valid : Valid heap)
    {cpu other : Fin 4}
    {page address : Nat}
    (fresh : ∀ other, page ∉ heap.pages other)
    (fetched : Bool)
    (here : address ∈ pagesAfter heap cpu page fetched)
    (there : address ∈ heap.pages other) :
    cpu = other := by
  cases fetched with
  | false => exact valid.disjoint cpu other address here there
  | true =>
      rcases List.mem_cons.mp here with rfl | old
      · exact absurd there (fresh other)
      · exact valid.disjoint cpu other address old there

/-- `kalloc` hands out a pointer which is not live. -/
theorem Grows.pointer_fresh
    {heap : Heap}
    (valid : Valid heap)
    {cpu : Fin 4}
    {size page : Nat}
    {allocation : Allocation}
    (grows : Grows heap cpu size page allocation)
    (fresh : ∀ other, page ∉ heap.pages other) :
    allocation.pointer ∉ heap.live.map Prod.fst := by
  intro member
  rcases List.mem_map.mp member with ⟨⟨pointer, other⟩, live, same⟩
  simp only at same
  subst same
  rcases (valid.live _ _).mp live with ⟨owner, owned⟩
  by_cases here : owner = cpu
  · subst here
    have separate : Separate none (pagesAfter heap owner page allocation.fetched) :=
      ⟨pagesAfter_nodup valid fresh _, by simp⟩
    have nodup := Laid.pointers_nodup separate grows.laid
    have distinct := (grows.perm.map Prod.fst).nodup_iff.mp nodup
    exact (List.nodup_cons.mp distinct).1
      (List.mem_map.mpr ⟨_, owned, rfl⟩)
  · have added :
        (allocation.pointer, size) ∈ allocated (allocation.lists cpu) :=
      grows.perm.mem_iff.mpr List.mem_cons_self
    rcases mem_allocated.mp added with ⟨node, nodeMember, _, nodeAt, _⟩
    rcases mem_allocated.mp owned with ⟨old, oldMember, _, oldAt, _⟩
    have nodePage := Laid.mem_pages grows.laid nodeMember
    have oldPage := Laid.mem_pages (valid.laid owner) oldMember
    have sameAddress : node.address = old.address := by omega
    rw [sameAddress] at nodePage
    exact here (pagesAfter_disjoint valid fresh _ nodePage oldPage).symm

theorem call_kalloc_pages
    (heap : Heap)
    (cpu : Fin 4)
    (size page : Nat) :
    (call heap (.kalloc cpu size page)).pages =
      Function.update heap.pages cpu
        (pagesAfter heap cpu page
          (kalloc heap.lists cpu size page).fetched) := by
  cases fetched : (kalloc heap.lists cpu size page).fetched with
  | false => simp [call, pagesAfter, fetched]
  | true => simp [call, pagesAfter, fetched]

theorem valid_kalloc
    {heap : Heap}
    (valid : Valid heap)
    {cpu : Fin 4}
    {size page : Nat}
    (permitted : Permitted heap (.kalloc cpu size page)) :
    Valid (call heap (.kalloc cpu size page)) := by
  rcases permitted with ⟨small, aligned, fresh⟩
  have grows :
      Grows heap cpu size page (kalloc heap.lists cpu size page) := by
    rw [valid.kalloc_exact cpu small]
    exact valid.kalloc_grows cpu small aligned
  have pages := call_kalloc_pages heap cpu size page
  have lists :
      (call heap (.kalloc cpu size page)).lists =
        (kalloc heap.lists cpu size page).lists := rfl
  have live :
      (call heap (.kalloc cpu size page)).live =
        ((kalloc heap.lists cpu size page).pointer, size) :: heap.live := rfl
  have pointerFresh := Grows.pointer_fresh valid grows fresh
  generalize kalloc heap.lists cpu size page = allocation at *
  refine ⟨?_, ?_, ?_, ?_, ?_, ?_⟩
  · intro other
    rw [pages, lists]
    by_cases here : other = cpu
    · subst here
      rw [Function.update_self]
      exact grows.laid
    · rw [Function.update_of_ne here, grows.others other here]
      exact valid.laid other
  · intro other
    rw [pages]
    by_cases here : other = cpu
    · subst here
      rw [Function.update_self]
      exact pagesAfter_nodup valid fresh _
    · rw [Function.update_of_ne here]
      exact valid.nodup other
  · intro left right address inLeft inRight
    rw [pages] at inLeft inRight
    by_cases isLeft : left = cpu
    · by_cases isRight : right = cpu
      · rw [isLeft, isRight]
      · subst isLeft
        rw [Function.update_self] at inLeft
        rw [Function.update_of_ne isRight] at inRight
        exact pagesAfter_disjoint valid fresh _ inLeft inRight
    · rw [Function.update_of_ne isLeft] at inLeft
      by_cases isRight : right = cpu
      · subst isRight
        rw [Function.update_self] at inRight
        exact (pagesAfter_disjoint valid fresh _ inRight inLeft).symm
      · rw [Function.update_of_ne isRight] at inRight
        exact valid.disjoint left right address inLeft inRight
  · intro pointer requested
    rw [live, lists, List.mem_cons, valid.live]
    constructor
    · rintro (same | ⟨owner, owned⟩)
      · exact ⟨cpu, grows.perm.mem_iff.mpr (List.mem_cons.mpr (Or.inl same))⟩
      · by_cases here : owner = cpu
        · subst here
          exact ⟨owner, grows.perm.mem_iff.mpr (List.mem_cons_of_mem _ owned)⟩
        · refine ⟨owner, ?_⟩
          rw [grows.others owner here]
          exact owned
    · rintro ⟨owner, owned⟩
      by_cases here : owner = cpu
      · subst here
        rcases List.mem_cons.mp (grows.perm.mem_iff.mp owned) with same | old
        · exact Or.inl same
        · exact Or.inr ⟨owner, old⟩
      · rw [grows.others owner here] at owned
        exact Or.inr ⟨owner, owned⟩
  · rw [live]
    exact List.nodup_cons.mpr ⟨pointerFresh, valid.pointers⟩
  · intro pointer requested member
    rw [live] at member
    rcases List.mem_cons.mp member with same | old
    · cases same
      exact grows.aligned
    · exact valid.aligned pointer requested old

theorem valid_kfree
    {heap : Heap}
    (valid : Valid heap)
    {pointer : Nat}
    (permitted : Permitted heap (.kfree pointer)) :
    Valid (call heap (.kfree pointer)) := by
  have lists :
      (call heap (.kfree pointer)).lists =
        kfreeWith id heap.lists pointer := valid.kfree_exact pointer
  have headed : sizeofNode ≤ pointer := by
    rcases List.mem_map.mp permitted with ⟨⟨_, size⟩, live, rfl⟩
    rcases valid.node live with ⟨_, node, _, _, at_, _⟩
    simp only
    omega
  refine ⟨?_, valid.nodup, valid.disjoint, ?_, ?_, ?_⟩
  · intro cpu
    rw [lists]
    exact freeNode_laid _ _ (valid.separate cpu) (valid.laid cpu)
  · intro other size
    rw [lists]
    simp only [call, List.mem_filter, decide_eq_true_eq, valid.live]
    have freed :
        ∀ cpu,
          (other, size) ∈ allocated (kfreeWith id heap.lists pointer cpu) ↔
            (other, size) ∈ allocated (heap.lists cpu) ∧ other ≠ pointer := by
      intro cpu
      have removed :
          (other, size) ∈
              allocated
                (freeNode id (pointer - sizeofNode) (heap.lists cpu)) ↔
            (other, size) ∈ allocated (heap.lists cpu) ∧
              other ≠ pointer - sizeofNode + sizeofNode :=
        mem_allocated_freeNode (heap.lists cpu)
          (valid.separate cpu) (valid.laid cpu)
      rw [Nat.sub_add_cancel headed] at removed
      exact removed
    simp only [freed]
    exact exists_and_right.symm
  · exact valid.pointers.sublist (List.filter_sublist.map _)
  · intro other size member
    exact valid.aligned other size (List.mem_filter.mp member).1

theorem valid_runs
    {calls : List Call}
    {heap : Heap}
    (runs : Runs calls heap) :
    Valid heap := by
  refine runs.invariant valid_init ?_
  rintro source label target valid permitted rfl
  cases label with
  | kalloc cpu size page => exact valid_kalloc valid permitted
  | kfree pointer => exact valid_kfree valid permitted

/-! ## Safety -/

/-- Two address ranges, given by start and length, share no byte. -/
def Disjoint (left right : Nat × Nat) : Prop :=
  left.1 + left.2 ≤ right.1 ∨ right.1 + right.2 ≤ left.1

/-- The safety of a heap and of the next call on it. -/
structure Safe (heap : Heap) : Prop where
  /-- Every list is the concatenation of its pages, each tiled exactly. -/
  tiled :
    ∀ cpu, ∃ segments : List (List Node),
      heap.lists cpu = segments.flatten ∧
        List.Forall₂
          (fun page segment => Tiles (page + pageSize) page segment)
          (heap.pages cpu) segments
  /-- No page is on two lists or twice on one. -/
  pages :
    ∀ cpu, (heap.pages cpu).Nodup ∧
      ∀ other page,
        page ∈ heap.pages cpu → page ∈ heap.pages other → cpu = other
  /-- Live payloads are pairwise disjoint. -/
  payloads : heap.live.Pairwise Disjoint
  /-- No live payload overlaps a header. -/
  headers :
    ∀ allocation ∈ heap.live, ∀ cpu, ∀ node ∈ heap.lists cpu,
      Disjoint allocation (node.address, sizeofNode)
  /-- The `u16` stores of the next call compute what no wrap computes. -/
  exactAlloc :
    ∀ cpu size page,
      size ≤ pageSize - sizeofNode →
        kalloc heap.lists cpu size page =
          kallocWith id heap.lists cpu size page
  exactFree :
    ∀ pointer, kfree heap.lists pointer = kfreeWith id heap.lists pointer
  /-- The next pointer is aligned as its size asks. -/
  aligned :
    ∀ cpu size page,
      Permitted heap (.kalloc cpu size page) →
        (kalloc heap.lists cpu size page).pointer %
            (if size % 8 = 0 then 8 else 4) =
          0

/-- A live payload lies behind its header and inside its node. -/
theorem Valid.disjoint_header
    {heap : Heap}
    (valid : Valid heap)
    {allocation : Nat × Nat}
    (live : allocation ∈ heap.live)
    {cpu : Fin 4}
    {node : Node}
    (member : node ∈ heap.lists cpu) :
    Disjoint allocation (node.address, sizeofNode) := by
  rcases valid.node live with ⟨owner, own, ownMember, isUsed, pointer, size⟩
  have payload :=
    (Laid.fits (valid.laid owner) ownMember).payload isUsed
  by_cases same : own.address = node.address
  · right
    simp only
    omega
  · rcases valid.apart ownMember member same with before | behind
    · left
      simp only [stop] at *
      omega
    · right
      simp only [stop, sizeofNode] at *
      omega

theorem Valid.disjoint_payloads
    {heap : Heap}
    (valid : Valid heap)
    {left right : Nat × Nat}
    (leftLive : left ∈ heap.live)
    (rightLive : right ∈ heap.live)
    (different : left.1 ≠ right.1) :
    Disjoint left right := by
  rcases valid.node leftLive with
    ⟨leftCpu, leftNode, leftMember, leftUsed, leftAt, leftSize⟩
  rcases valid.node rightLive with
    ⟨rightCpu, rightNode, rightMember, rightUsed, rightAt, rightSize⟩
  have leftPayload :=
    (Laid.fits (valid.laid leftCpu) leftMember).payload leftUsed
  have rightPayload :=
    (Laid.fits (valid.laid rightCpu) rightMember).payload rightUsed
  have addresses : leftNode.address ≠ rightNode.address := by
    intro same
    omega
  rcases valid.apart leftMember rightMember addresses with before | behind
  · left
    simp only [stop] at before
    omega
  · right
    simp only [stop] at behind
    omega

/--
In every state reached by calls of `kalloc` and `kfree` the headers tile the
fetched pages without a wrapped size, the live payloads overlap neither each
other nor a header, and the next pointer is aligned.
-/
theorem kernel_heap_safe
    {calls : List Call}
    {heap : Heap}
    (runs : Runs calls heap) :
    Safe heap := by
  have valid := valid_runs runs
  refine ⟨?_, ?_, ?_, ?_, ?_, valid.kfree_exact, ?_⟩
  · exact fun cpu => Laid.tiles (valid.laid cpu)
  · exact fun cpu => ⟨valid.nodup cpu, valid.disjoint cpu⟩
  · have distinct : heap.live.Pairwise fun left right => left.1 ≠ right.1 :=
      List.pairwise_map.mp valid.pointers
    refine List.Pairwise.imp_of_mem ?_ distinct
    exact fun leftLive rightLive different =>
      valid.disjoint_payloads leftLive rightLive different
  · exact fun allocation live cpu node member =>
      valid.disjoint_header live member
  · exact fun cpu size page small => valid.kalloc_exact cpu small page
  · rintro cpu size page ⟨small, aligned, _⟩
    rw [valid.kalloc_exact cpu small]
    exact (valid.kalloc_grows cpu small aligned).aligned

/-- Two CPUs allocate and one of the pointers is freed. -/
theorem kernel_heap_safe_three_calls :
    ∃ heap,
      Runs [.kalloc 0 24 4096, .kalloc 1 10 8192, .kfree 4112] heap ∧
        Safe heap := by
  have first :
      kalloc Heap.init.lists 0 24 4096 =
        { lists :=
            Function.update Heap.init.lists 0
              [{ address := 4096, size := 4080, used := 24, free := false }]
          pointer := 4112
          fetched := true } := by
    simp [kalloc, kallocWith, Heap.init, search, take, newPage, toU16,
      pageSize, sizeofNode]
  have runs :
      Runs [.kalloc 0 24 4096, .kalloc 1 10 8192, .kfree 4112]
        (call (call (call Heap.init (.kalloc 0 24 4096))
          (.kalloc 1 10 8192)) (.kfree 4112)) := by
    refine Run.snoc (Run.snoc (Run.snoc Run.nil ?_ rfl) ?_ rfl) ?_ rfl
    · refine ⟨by decide, by decide, ?_⟩
      simp [Heap.init]
    · refine ⟨by decide, by decide, ?_⟩
      intro cpu
      simp only [call, first, if_true, Function.update_apply]
      split_ifs
      · simp [Heap.init]
      · simp [Heap.init]
    · simp [Permitted, call, first]
  exact ⟨_, runs, kernel_heap_safe runs⟩

end FudanOS.Kernel.HeapSafety
