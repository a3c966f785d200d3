import FudanOS.Kernel.Heap
import Mathlib.Data.List.Perm.Basic
import Mathlib.Data.List.Nodup

/-!
# Pages tiled by their nodes

A list of `kernel/mem.c` is the concatenation of its pages, newest first, and
the headers of a page tile it: the end of a node is the next header or the end
of the page.  `Laid` states this from any node of a list on, which is the form
in which `merge`, the splits of `kalloc` and its search loop keep it.
-/

namespace FudanOS.Kernel.HeapTiling

open FudanOS.Kernel.Heap

/-! ## Pages tiled by their nodes -/

/-- The nodes tile the addresses from `start` up to `limit`. -/
def Tiles (limit : Nat) : Nat → List Node → Prop
  | start, [] => start = limit
  | start, node :: rest =>
      node.address = start ∧
        Tiles limit (start + sizeofNode + node.size) rest

/-- The end of a node: the address of the next header or of the page end. -/
def stop (node : Node) : Nat :=
  node.address + sizeofNode + node.size

/-- A node lies inside its page and its payload inside the node. -/
structure NodeFits (node : Node) : Prop where
  aligned : node.address % 4 = 0
  inside : stop node ≤ pageBase node.address + pageSize
  payload : node.free = false → node.used ≤ node.size

/-- Where the next node begins: inside the page, or in a new page. -/
def after (node : Node) : Option Nat :=
  if stop node = pageBase node.address + pageSize then none
  else some (stop node)

/--
A node at `address` may come next: it goes on in the page begun before, or it
starts the first of the given pages.
-/
def Enters
    (start : Option Nat)
    (pages : List Nat)
    (address : Nat)
    (later : List Nat) : Prop :=
  (start = some address ∧ pages = later) ∨
    (start = none ∧ pages = address :: later ∧ address % pageSize = 0)

/--
A list from some node on: first the rest of the page begun at the given
address, then the given pages, each tiled by its nodes.
-/
def Laid : Option Nat → List Nat → List Node → Prop
  | start, pages, [] => start = none ∧ pages = []
  | start, pages, node :: rest =>
      ∃ later,
        Enters start pages node.address later ∧
          NodeFits node ∧ Laid (after node) later rest

/-- The pages still to come differ from each other and from the present one. -/
structure Separate (start : Option Nat) (pages : List Nat) : Prop where
  nodup : pages.Nodup
  present : ∀ address, start = some address → pageBase address ∉ pages

/-- The pointers and sizes of the allocations on a list. -/
def allocated : List Node → List (Nat × Nat)
  | [] => []
  | node :: rest =>
      if node.free = true then allocated rest
      else (node.address + sizeofNode, node.used) :: allocated rest

theorem pageBase_le (address : Nat) :
    pageBase address ≤ address ∧
      address < pageBase address + pageSize := by
  simp only [pageBase, pageSize]
  omega

theorem pageBase_eq_of_mem
    {address other : Nat}
    (lower : pageBase address ≤ other)
    (upper : other < pageBase address + pageSize) :
    pageBase other = pageBase address := by
  simp only [pageBase, pageSize] at *
  omega

theorem pageBase_of_aligned
    {address : Nat}
    (aligned : address % pageSize = 0) :
    pageBase address = address := by
  simp only [pageBase, pageSize] at *
  omega

/-- The next header of a page lies in the page of the node before it. -/
theorem pageBase_after
    {node : Node}
    {address : Nat}
    (fits : NodeFits node)
    (next : after node = some address) :
    address = stop node ∧ pageBase address = pageBase node.address := by
  unfold after at next
  split_ifs at next with ends
  cases next
  have base := pageBase_le node.address
  have inside := fits.inside
  refine ⟨rfl, pageBase_eq_of_mem ?_ ?_⟩
  · have behind : node.address ≤ stop node := by
      simp only [stop]
      omega
    omega
  · omega

theorem Enters.separate
    {start : Option Nat}
    {pages later : List Nat}
    {address : Nat}
    (enters : Enters start pages address later)
    (separate : Separate start pages) :
    Separate (some address) later := by
  rcases enters with ⟨rfl, rfl⟩ | ⟨rfl, rfl, aligned⟩
  · exact separate
  · have nodup := List.nodup_cons.mp separate.nodup
    refine ⟨nodup.2, ?_⟩
    intro other same
    cases same
    rw [pageBase_of_aligned aligned]
    exact nodup.1

theorem Separate.after
    {node : Node}
    {pages : List Nat}
    (separate : Separate (some node.address) pages)
    (fits : NodeFits node) :
    Separate (after node) pages where
  nodup := separate.nodup
  present := by
    intro address next
    rw [(pageBase_after fits next).2]
    exact separate.present node.address rfl

/-- Sizes are far below the range of a `u16`. -/
theorem NodeFits.size_le
    {node : Node}
    (fits : NodeFits node) :
    node.size ≤ pageSize - sizeofNode := by
  have base := (pageBase_le node.address).1
  have inside := fits.inside
  simp only [stop, pageSize, sizeofNode] at *
  omega

/-- Nodes behind the first one lie behind its end or in later pages. -/
theorem Laid.behind
    {node other : Node}
    {pages : List Nat}
    {rest : List Node}
    (fits : NodeFits node)
    (laid : Laid (after node) pages rest)
    (member : other ∈ rest) :
    (pageBase other.address = pageBase node.address ∧
        stop node ≤ other.address) ∨
      pageBase other.address ∈ pages := by
  induction rest generalizing node pages with
  | nil => simp at member
  | cons next rest ih =>
      rcases laid with ⟨later, enters, nextFits, nextLaid⟩
      have first :
          (pageBase next.address = pageBase node.address ∧
              stop node ≤ next.address) ∨
            pageBase next.address ∈ pages := by
        rcases enters with ⟨same, _⟩ | ⟨_, rfl, aligned⟩
        · have position := pageBase_after fits same
          exact Or.inl ⟨position.2, Nat.le_of_eq position.1.symm⟩
        · rw [pageBase_of_aligned aligned]
          exact Or.inr List.mem_cons_self
      have laterSubset : ∀ page ∈ later, page ∈ pages := by
        rcases enters with ⟨_, rfl⟩ | ⟨_, rfl, _⟩
        · exact fun _ present => present
        · exact fun _ present => List.mem_cons_of_mem _ present
      rcases List.mem_cons.mp member with rfl | tail
      · exact first
      · rcases ih nextFits nextLaid tail with ⟨samePage, behind⟩ | inLater
        · rcases first with ⟨nextPage, nextBehind⟩ | nextLater
          · have grows : next.address ≤ stop next := by
              simp only [stop]
              omega
            exact Or.inl ⟨samePage.trans nextPage, by omega⟩
          · rw [samePage]
            exact Or.inr nextLater
        · exact Or.inr (laterSubset _ inLater)

theorem Laid.fits
    {start : Option Nat}
    {pages : List Nat}
    {nodes : List Node}
    {node : Node}
    (laid : Laid start pages nodes)
    (member : node ∈ nodes) :
    NodeFits node := by
  induction nodes generalizing start pages with
  | nil => simp at member
  | cons first rest ih =>
      rcases laid with ⟨later, _, fits, restLaid⟩
      rcases List.mem_cons.mp member with rfl | tail
      · exact fits
      · exact ih restLaid tail

/-- Nodes of different pages occupy disjoint addresses. -/
theorem apart_of_pageBase_ne
    {left right : Node}
    (leftFits : NodeFits left)
    (rightFits : NodeFits right)
    (different : pageBase left.address ≠ pageBase right.address) :
    stop left ≤ right.address ∨ stop right ≤ left.address := by
  have leftInside := leftFits.inside
  have rightInside := rightFits.inside
  simp only [pageBase, pageSize] at *
  omega

/-- Two nodes of one list occupy disjoint addresses. -/
theorem Laid.apart
    {start : Option Nat}
    {pages : List Nat}
    {nodes : List Node}
    (separate : Separate start pages)
    (laid : Laid start pages nodes) :
    nodes.Pairwise fun left right =>
      stop left ≤ right.address ∨ stop right ≤ left.address := by
  induction nodes generalizing start pages with
  | nil => exact List.Pairwise.nil
  | cons node rest ih =>
      rcases laid with ⟨later, enters, fits, restLaid⟩
      have here := enters.separate separate
      refine List.Pairwise.cons ?_ (ih (here.after fits) restLaid)
      intro other member
      rcases Laid.behind fits restLaid member with ⟨_, behind⟩ | elsewhere
      · exact Or.inl behind
      · have different : pageBase node.address ≠ pageBase other.address := by
          intro same
          rw [← same] at elsewhere
          exact here.present node.address rfl elsewhere
        exact apart_of_pageBase_ne fits (Laid.fits restLaid member) different

/-- A list starts only at a node, and its nodes lie in its pages. -/
theorem Laid.mem_pages
    {pages : List Nat}
    {nodes : List Node}
    {node : Node}
    (laid : Laid none pages nodes)
    (member : node ∈ nodes) :
    pageBase node.address ∈ pages := by
  cases nodes with
  | nil => simp at member
  | cons first rest =>
      rcases laid with ⟨later, enters, fits, restLaid⟩
      rcases enters with ⟨impossible, _⟩ | ⟨_, rfl, aligned⟩
      · simp at impossible
      · have firstPage := pageBase_of_aligned aligned
        rcases List.mem_cons.mp member with rfl | tail
        · rw [firstPage]
          exact List.mem_cons_self
        · rcases Laid.behind fits restLaid tail with
            ⟨samePage, _⟩ | elsewhere
          · rw [samePage, firstPage]
            exact List.mem_cons_self
          · exact List.mem_cons_of_mem _ elsewhere

/-- Replace the first node by one at the same address. -/
theorem Laid.replace
    {start : Option Nat}
    {pages : List Nat}
    {node other : Node}
    {rest tail : List Node}
    (laid : Laid start pages (node :: rest))
    (sameAddress : other.address = node.address)
    (fits : NodeFits other)
    (restLaid :
      ∀ later, Laid (after node) later rest → Laid (after other) later tail) :
    Laid start pages (other :: tail) := by
  rcases laid with ⟨later, enters, _, tailLaid⟩
  exact ⟨later, sameAddress ▸ enters, fits, restLaid later tailLaid⟩

/-! ## Merging -/

/-- The node which absorbs `next`. -/
def absorb (head next : Node) : Node :=
  { head with size := head.size + next.size + sizeofNode }

/-- A free node of the same page which comes next is adjacent. -/
theorem Laid.adjacent
    {start : Option Nat}
    {pages : List Nat}
    {head next : Node}
    {rest : List Node}
    (separate : Separate start pages)
    (laid : Laid start pages (head :: next :: rest))
    (samePage : pageBase head.address = pageBase next.address) :
    next.address = stop head := by
  rcases laid with ⟨later, enters, fits, nextLater, nextEnters, _, _⟩
  have here := enters.separate separate
  rcases nextEnters with ⟨goesOn, _⟩ | ⟨_, rfl, aligned⟩
  · exact (pageBase_after fits goesOn).1
  · -- The next node would start a second page at the same base.
    have fresh := here.present head.address rfl
    rw [samePage, pageBase_of_aligned aligned] at fresh
    exact absurd List.mem_cons_self fresh

theorem Laid.absorbing
    {start : Option Nat}
    {pages : List Nat}
    {head next : Node}
    {rest : List Node}
    (separate : Separate start pages)
    (laid : Laid start pages (head :: next :: rest))
    (samePage : pageBase head.address = pageBase next.address) :
    Laid start pages (absorb head next :: rest) := by
  have adjacent := Laid.adjacent separate laid samePage
  have sameStop : stop (absorb head next) = stop next := by
    simp only [stop, absorb] at *
    omega
  have sameAfter : after (absorb head next) = after next := by
    have address :
        (absorb head next).address = head.address := rfl
    simp only [after, sameStop, address, samePage]
  have headFits := Laid.fits laid List.mem_cons_self
  have nextFits :=
    Laid.fits laid (List.mem_cons_of_mem _ List.mem_cons_self)
  refine Laid.replace laid rfl ?_ ?_
  · refine ⟨headFits.aligned, ?_, ?_⟩
    · rw [sameStop]
      show stop next ≤ pageBase head.address + pageSize
      rw [samePage]
      exact nextFits.inside
    · intro used
      have payload := headFits.payload used
      simp only [absorb]
      omega
  · rintro later ⟨nextLater, nextEnters, _, restLaid⟩
    rw [sameAfter]
    rcases nextEnters with ⟨_, rfl⟩ | ⟨ends, rfl, aligned⟩
    · exact restLaid
    · -- The head would end its page, yet the next node lies in it.
      have inside := nextFits.inside
      simp only [after] at ends
      split_ifs at ends with stops
      simp only [stop, pageBase, pageSize, sizeofNode] at *
      omega

/-- What `merge` leaves in front of a laid list. -/
structure Merged
    (start : Option Nat)
    (pages : List Nat)
    (head : Node)
    (rest : List Node)
    (result : Node × List Node) : Prop where
  address : result.1.address = head.address
  used : result.1.used = head.used
  free : result.1.free = head.free
  laid : Laid start pages (result.1 :: result.2)
  kept : allocated result.2 = allocated rest

theorem merge_spec
    {start : Option Nat}
    {pages : List Nat}
    (separate : Separate start pages)
    (head : Node)
    (rest : List Node)
    (laid : Laid start pages (head :: rest)) :
    Merged start pages head rest (merge id head rest) := by
  induction rest generalizing head with
  | nil => exact ⟨rfl, rfl, rfl, laid, rfl⟩
  | cons next rest ih =>
      rw [merge]
      split_ifs with absorbs
      · have merged :=
          ih (absorb head next)
            (Laid.absorbing separate laid absorbs.2)
        refine ⟨merged.address, merged.used, merged.free, merged.laid, ?_⟩
        have kept := merged.kept
        simp only [id_eq]
        rw [allocated, if_pos absorbs.1]
        exact kept
      · exact ⟨rfl, rfl, rfl, laid, rfl⟩

/-- Stores which are exact on every value below the range of a `u16`. -/
def ExactStore (store : Nat → Nat) : Prop :=
  ∀ value < 2 ^ 16, store value = value

theorem merge_exact
    {store : Nat → Nat}
    (exact : ExactStore store)
    {start : Option Nat}
    {pages : List Nat}
    (separate : Separate start pages)
    (head : Node)
    (rest : List Node)
    (laid : Laid start pages (head :: rest)) :
    merge store head rest = merge id head rest := by
  induction rest generalizing head with
  | nil => rfl
  | cons next rest ih =>
      rw [merge, merge]
      split_ifs with absorbs
      · have absorbed := Laid.absorbing separate laid absorbs.2
        have size :
            head.size + next.size + sizeofNode ≤ pageSize - sizeofNode :=
          (Laid.fits absorbed List.mem_cons_self).size_le
        have stored :
            store (head.size + next.size + sizeofNode) =
              head.size + next.size + sizeofNode :=
          exact _ (by simp only [pageSize, sizeofNode] at *; omega)
        rw [stored]
        exact ih _ absorbed
      · rfl

/-! ## Splitting -/

/-- A split keeps a list laid when the new header fits in the node. -/
theorem Laid.split
    {start : Option Nat}
    {pages : List Nat}
    {head : Node}
    {rest : List Node}
    {temp : Nat}
    (laid : Laid start pages (head :: rest))
    (aligned : temp % 4 = 0)
    (behind : head.address + sizeofNode ≤ temp)
    (room : temp - head.address - sizeofNode + sizeofNode ≤ head.size)
    (payload :
      head.free = false → head.used ≤ temp - head.address - sizeofNode) :
    Laid start pages
      (splitFront id head temp :: splitBack id head temp :: rest) := by
  have fits := Laid.fits laid List.mem_cons_self
  have inside := fits.inside
  have base := pageBase_le head.address
  have frontStop : stop (splitFront id head temp) = temp := by
    simp only [stop, splitFront, id_eq, sizeofNode] at *
    omega
  have backStop : stop (splitBack id head temp) = stop head := by
    simp only [stop, splitBack, id_eq, sizeofNode] at *
    omega
  have reaches : temp + sizeofNode ≤ stop head := by
    simp only [stop, sizeofNode] at *
    omega
  have tempPage : pageBase temp = pageBase head.address := by
    apply pageBase_eq_of_mem
    · simp only [sizeofNode] at *
      omega
    · simp only [sizeofNode] at *
      omega
  have frontAfter : after (splitFront id head temp) = some temp := by
    have address : (splitFront id head temp).address = head.address := rfl
    rw [after, frontStop, address, if_neg]
    simp only [sizeofNode] at *
    omega
  have backAfter : after (splitBack id head temp) = after head := by
    have address : (splitBack id head temp).address = temp := rfl
    simp only [after, backStop, address, tempPage]
  refine Laid.replace laid rfl ?_ ?_
  · refine ⟨fits.aligned, ?_, payload⟩
    rw [frontStop]
    show temp ≤ pageBase head.address + pageSize
    simp only [sizeofNode] at *
    omega
  · intro later restLaid
    refine ⟨later, Or.inl ⟨frontAfter, rfl⟩, ⟨aligned, ?_, ?_⟩, ?_⟩
    · rw [backStop]
      show stop head ≤ pageBase temp + pageSize
      rw [tempPage]
      exact inside
    · intro impossible
      simp [splitBack] at impossible
    · rw [backAfter]
      exact restLaid

/-- Taking a free node keeps a list laid when the request fits. -/
theorem Laid.taking
    {start : Option Nat}
    {pages : List Nat}
    {head : Node}
    {rest : List Node}
    {size : Nat}
    (laid : Laid start pages (head :: rest))
    (fits : size ≤ head.size) :
    Laid start pages (take id size head :: rest) := by
  have headFits := Laid.fits laid List.mem_cons_self
  refine Laid.replace laid rfl ?_ ?_
  · exact ⟨headFits.aligned, headFits.inside, fun _ => fits⟩
  · exact fun _ restLaid => restLaid

theorem alignUp_spec
    {alignment : Nat}
    (known : alignment = 4 ∨ alignment = 8)
    (address : Nat) :
    address ≤ alignUp alignment address ∧
      alignUp alignment address % alignment = 0 ∧
      alignUp alignment address % 4 = 0 := by
  unfold alignUp
  rcases known with rfl | rfl <;> split_ifs <;> omega

/-! ## The search loop -/

/-- What the search loop leaves behind on a laid list. -/
structure Searched
    (start : Option Nat)
    (pages : List Nat)
    (alignment size : Nat)
    (nodes : List Node)
    (result : List Node × Option Nat) : Prop where
  laid : Laid start pages result.1
  kept : result.2 = none → allocated result.1 = allocated nodes
  taken :
    ∀ address, result.2 = some address →
      address % alignment = 0 ∧
        (allocated result.1).Perm
          ((address + sizeofNode, size) :: allocated nodes)

/-- Put a visited node back in front of the rest of the search. -/
theorem Searched.cons
    {start : Option Nat}
    {pages : List Nat}
    {alignment size : Nat}
    {head node : Node}
    {rest tail : List Node}
    {later : List Node × Option Nat}
    (separate : Separate start pages)
    (laid : Laid start pages (node :: tail))
    (sameAllocated : allocated (node :: tail) = allocated (head :: rest))
    (searched :
      ∀ laterPages,
        Separate (after node) laterPages →
          Laid (after node) laterPages tail →
            Searched (after node) laterPages alignment size tail later) :
    Searched start pages alignment size (head :: rest)
      (visited node later) := by
  rcases laid with ⟨laterPages, enters, fits, tailLaid⟩
  have rest :=
    searched laterPages ((enters.separate separate).after fits) tailLaid
  refine ⟨⟨laterPages, enters, fits, rest.laid⟩, ?_, ?_⟩
  · intro missing
    have kept := rest.kept missing
    rw [← sameAllocated]
    simp only [visited, allocated, kept]
  · intro address found
    rcases rest.taken address found with ⟨aligned, perm⟩
    refine ⟨aligned, ?_⟩
    rw [← sameAllocated]
    simp only [visited, allocated]
    split_ifs
    · exact perm
    · exact (perm.cons _).trans (List.Perm.swap _ _ _)

theorem allocated_head
    {node other : Node}
    {rest tail : List Node}
    (address : node.address = other.address)
    (used : node.used = other.used)
    (free : node.free = other.free)
    (kept : allocated rest = allocated tail) :
    allocated (node :: rest) = allocated (other :: tail) := by
  simp only [allocated, address, used, free, kept]

/-- A free node taken as it is. -/
theorem Searched.taking
    {start : Option Nat}
    {pages : List Nat}
    {alignment size : Nat}
    {node : Node}
    {tail nodes : List Node}
    (laid : Laid start pages (node :: tail))
    (kept : allocated tail = allocated nodes)
    (suits : Suits id alignment size node) :
    Searched start pages alignment size nodes
      (take id size node :: tail, some node.address) := by
  refine ⟨Laid.taking laid suits.2, by simp, ?_⟩
  intro address found
  cases found
  refine ⟨suits.1, ?_⟩
  simp only [allocated, take, Bool.false_eq_true, if_false, id_eq, kept]
  exact List.Perm.refl _

/-- A free node whose aligned part is split off and taken. -/
theorem Searched.splitting
    {start : Option Nat}
    {pages : List Nat}
    {alignment size : Nat}
    (known : alignment = 4 ∨ alignment = 8)
    {node : Node}
    {tail nodes : List Node}
    (laid : Laid start pages (node :: tail))
    (isFree : node.free = true)
    (kept : allocated tail = allocated nodes)
    (suits : SuitsSplit id alignment size node) :
    Searched start pages alignment size nodes
      (splitFront id node (freeTemp alignment node) ::
          take id size (splitBack id node (freeTemp alignment node)) ::
          tail,
        some (freeTemp alignment node)) := by
  have spec := alignUp_spec known (node.address + sizeofNode)
  have room := suits.2
  rw [← freeTemp] at spec
  simp only [id_eq] at room
  generalize freeTemp alignment node = temp at *
  have split :=
    Laid.split laid spec.2.2 spec.1 (by omega) (by simp [isFree])
  rcases split with ⟨later, enters, frontFits, backLaid⟩
  have back : size ≤ (splitBack id node temp).size := by
    simp only [splitBack, id_eq]
    omega
  refine
    ⟨⟨later, enters, frontFits, Laid.taking backLaid back⟩, by simp, ?_⟩
  intro address found
  cases found
  refine ⟨spec.2.1, ?_⟩
  have frontFree : (splitFront id node temp).free = true := isFree
  simp only [allocated, frontFree, take, splitBack, if_true,
    Bool.false_eq_true, if_false, id_eq, kept]
  exact List.Perm.refl _

/-- A used node with room behind its payload is split there. -/
theorem Laid.splitUsed
    {start : Option Nat}
    {pages : List Nat}
    {alignment : Nat}
    (known : alignment = 4 ∨ alignment = 8)
    {head : Node}
    {rest : List Node}
    (laid : Laid start pages (head :: rest))
    (room : Splits alignment head) :
    Laid start pages
      (splitFront id head (usedTemp alignment head) ::
        splitBack id head (usedTemp alignment head) :: rest) := by
  have spec :=
    alignUp_spec known (head.address + sizeofNode + head.used)
  rw [← usedTemp] at spec
  exact Laid.split laid spec.2.2 (by omega) room (by intro _; omega)

theorem search_spec
    {alignment : Nat}
    (known : alignment = 4 ∨ alignment = 8)
    (size : Nat)
    (nodes : List Node)
    {start : Option Nat}
    {pages : List Nat}
    (separate : Separate start pages)
    (laid : Laid start pages nodes) :
    Searched start pages alignment size nodes
      (search id alignment size nodes) := by
  induction nodes using search.induct id alignment size
      generalizing start pages with
  | case1 =>
      rw [search]
      exact ⟨laid, fun _ => rfl, by simp⟩
  | case2 head rest isFree suits =>
      have merged := merge_spec separate head rest laid
      rw [search_taking isFree rfl suits]
      apply Searched.taking merged.laid _ suits
      rw [merged.kept, allocated, if_pos isFree]
  | case3 head rest isFree misfits suits =>
      have merged := merge_spec separate head rest laid
      rw [search_splitting isFree rfl misfits suits]
      apply Searched.splitting known merged.laid
        (merged.free.trans isFree) _ suits
      rw [merged.kept, allocated, if_pos isFree]
  | case4 head rest isFree misfits tight ih =>
      have merged := merge_spec separate head rest laid
      rw [search_passing isFree rfl misfits tight]
      exact Searched.cons separate merged.laid
        (allocated_head merged.address merged.used merged.free merged.kept)
        fun _ => ih
  | case5 head rest isUsed room ih =>
      rw [search_used_split isUsed room]
      refine Searched.cons separate (Laid.splitUsed known laid room) ?_
        fun _ => ih
      apply allocated_head rfl rfl rfl
      rw [allocated, if_pos]
      rfl
  | case6 head rest isUsed tight ih =>
      rw [search_used_whole isUsed tight]
      exact Searched.cons separate laid rfl fun _ => ih

/-- Below the range of a `u16` the stores of the search loop are exact. -/
theorem search_exact
    {store : Nat → Nat}
    (exact : ExactStore store)
    {alignment : Nat}
    (known : alignment = 4 ∨ alignment = 8)
    {size : Nat}
    (small : size ≤ pageSize - sizeofNode)
    (nodes : List Node)
    {start : Option Nat}
    {pages : List Nat}
    (separate : Separate start pages)
    (laid : Laid start pages nodes) :
    search store alignment size nodes = search id alignment size nodes := by
  have sizeExact : store size = size :=
    exact _ (by simp only [pageSize, sizeofNode] at small; omega)
  have splitExact :
      ∀ node temp, NodeFits node →
        temp - node.address - sizeofNode + sizeofNode ≤ node.size →
          splitFront store node temp = splitFront id node temp ∧
            splitBack store node temp = splitBack id node temp := by
    intro node temp fits room
    have bound := fits.size_le
    simp only [pageSize, sizeofNode] at bound room
    constructor
    · simp only [splitFront, id_eq]
      rw [exact _ (by simp only [sizeofNode]; omega)]
    · simp only [splitBack, id_eq]
      rw [exact _ (by simp only [sizeofNode]; omega)]
  have takeExact : ∀ node, take store size node = take id size node := by
    intro node
    simp only [take, sizeExact, id_eq]
  have suitsExact :
      ∀ node,
        Suits store alignment size node = Suits id alignment size node := by
    intro node
    simp only [Suits, sizeExact, id_eq]
  have suitsSplitExact :
      ∀ node,
        SuitsSplit store alignment size node =
          SuitsSplit id alignment size node := by
    intro node
    simp only [SuitsSplit, sizeExact, id_eq]
  induction nodes using search.induct id alignment size
      generalizing start pages with
  | case1 => rw [search, search]
  | case2 head rest isFree suits =>
      have mergeSame := merge_exact exact separate head rest laid
      rw [search_taking isFree mergeSame (suitsExact _ ▸ suits),
        search_taking isFree rfl suits, takeExact]
  | case3 head rest isFree misfits suits =>
      have mergeSame := merge_exact exact separate head rest laid
      have merged := merge_spec separate head rest laid
      have same :=
        splitExact _ (freeTemp alignment (merge id head rest).1)
          (Laid.fits merged.laid List.mem_cons_self)
          (by
            have room := suits.2
            simp only [id_eq] at room
            omega)
      rw [search_splitting isFree mergeSame
          (suitsExact _ ▸ misfits) (suitsSplitExact _ ▸ suits),
        search_splitting isFree rfl misfits suits, same.1, same.2,
        takeExact]
  | case4 head rest isFree misfits tight ih =>
      have mergeSame := merge_exact exact separate head rest laid
      have merged := merge_spec separate head rest laid
      rcases merged.laid with ⟨later, enters, fits, tailLaid⟩
      have searched := ih ((enters.separate separate).after fits) tailLaid
      rw [search_passing isFree mergeSame
          (suitsExact _ ▸ misfits) (suitsSplitExact _ ▸ tight),
        search_passing isFree rfl misfits tight, searched]
  | case5 head rest isUsed room ih =>
      have same :=
        splitExact head _ (Laid.fits laid List.mem_cons_self) room
      rcases Laid.splitUsed known laid room with
        ⟨later, enters, fits, tailLaid⟩
      have searched := ih ((enters.separate separate).after fits) tailLaid
      rw [search_used_split isUsed room, search_used_split isUsed room,
        same.1, same.2, searched]
  | case6 head rest isUsed tight ih =>
      rcases laid with ⟨later, enters, fits, tailLaid⟩
      have searched := ih ((enters.separate separate).after fits) tailLaid
      rw [search_used_whole isUsed tight, search_used_whole isUsed tight,
        searched]

/-! ## Freeing a node -/

theorem mem_allocated
    {nodes : List Node}
    {pointer size : Nat} :
    (pointer, size) ∈ allocated nodes ↔
      ∃ node ∈ nodes,
        node.free = false ∧
          pointer = node.address + sizeofNode ∧ size = node.used := by
  induction nodes with
  | nil => simp [allocated]
  | cons node rest ih =>
      rw [allocated]
      cases free : node.free with
      | true => simp [ih, free]
      | false => simp [ih, free]

/-- Nodes behind the first one have other addresses. -/
theorem Laid.address_ne
    {start : Option Nat}
    {pages : List Nat}
    {node other : Node}
    {rest : List Node}
    (separate : Separate start pages)
    (laid : Laid start pages (node :: rest))
    (member : other ∈ rest) :
    other.address ≠ node.address := by
  have apart :=
    (List.pairwise_cons.mp (Laid.apart separate laid)).1 other member
  simp only [stop, sizeofNode] at apart
  omega

theorem freeNode_laid
    {start : Option Nat}
    {pages : List Nat}
    (address : Nat)
    (nodes : List Node)
    (separate : Separate start pages)
    (laid : Laid start pages nodes) :
    Laid start pages (freeNode id address nodes) := by
  induction nodes generalizing start pages with
  | nil => exact laid
  | cons head rest ih =>
      rw [freeNode]
      split_ifs with found
      · have merged := merge_spec separate head rest laid
        have fits := Laid.fits merged.laid List.mem_cons_self
        exact Laid.replace merged.laid rfl
          ⟨fits.aligned, fits.inside, by simp⟩
          fun _ tailLaid => tailLaid
      · rcases laid with ⟨later, enters, fits, restLaid⟩
        exact ⟨later, enters, fits,
          ih ((enters.separate separate).after fits) restLaid⟩

theorem freeNode_exact
    {store : Nat → Nat}
    (exact : ExactStore store)
    {start : Option Nat}
    {pages : List Nat}
    (address : Nat)
    (nodes : List Node)
    (separate : Separate start pages)
    (laid : Laid start pages nodes) :
    freeNode store address nodes = freeNode id address nodes := by
  induction nodes generalizing start pages with
  | nil => rfl
  | cons head rest ih =>
      rw [freeNode, freeNode]
      split_ifs with found
      · rw [merge_exact exact separate head rest laid]
      · rcases laid with ⟨later, enters, fits, restLaid⟩
        rw [ih ((enters.separate separate).after fits) restLaid]

/-- Freeing removes exactly the allocation at that node. -/
theorem mem_allocated_freeNode
    {start : Option Nat}
    {pages : List Nat}
    {address pointer size : Nat}
    (nodes : List Node)
    (separate : Separate start pages)
    (laid : Laid start pages nodes) :
    (pointer, size) ∈ allocated (freeNode id address nodes) ↔
      (pointer, size) ∈ allocated nodes ∧
        pointer ≠ address + sizeofNode := by
  induction nodes generalizing start pages with
  | nil => simp [freeNode, allocated]
  | cons head rest ih =>
      rw [freeNode]
      split_ifs with found
      · have merged := merge_spec separate head rest laid
        have elsewhere :
            (pointer, size) ∈ allocated rest →
              pointer ≠ address + sizeofNode := by
          intro member
          rcases mem_allocated.mp member with
            ⟨node, inRest, _, rfl, _⟩
          have different := Laid.address_ne separate laid inRest
          omega
        simp only [allocated, if_true, merged.kept]
        split_ifs with isFree
        · exact ⟨fun member => ⟨member, elsewhere member⟩, And.left⟩
        · constructor
          · intro member
            exact ⟨List.mem_cons_of_mem _ member, elsewhere member⟩
          · rintro ⟨member, different⟩
            rcases List.mem_cons.mp member with same | tail
            · simp only [Prod.mk.injEq] at same
              omega
            · exact tail
      · rcases laid with ⟨later, enters, fits, restLaid⟩
        have tail :=
          ih ((enters.separate separate).after fits) restLaid
        simp only [allocated]
        split_ifs with isFree
        · exact tail
        · simp only [List.mem_cons, tail, Prod.mk.injEq]
          constructor
          · rintro (⟨rfl, rfl⟩ | ⟨member, different⟩)
            · exact ⟨Or.inl ⟨rfl, rfl⟩, by omega⟩
            · exact ⟨Or.inr member, different⟩
          · rintro ⟨same | member, different⟩
            · exact Or.inl same
            · exact Or.inr ⟨member, different⟩

/-! ## A laid list is the concatenation of its tiled pages -/

theorem Laid.tiles_rest
    {node : Node}
    {pages : List Nat}
    {rest : List Node}
    (fits : NodeFits node)
    (laid : Laid (after node) pages rest) :
    ∃ nodes others,
      rest = nodes ++ others ∧
        Tiles (pageBase node.address + pageSize) (stop node) nodes ∧
        Laid none pages others := by
  induction rest generalizing node pages with
  | nil =>
      rcases laid with ⟨ends, rfl⟩
      refine ⟨[], [], rfl, ?_, ⟨rfl, rfl⟩⟩
      simp only [after] at ends
      split_ifs at ends with stops
      exact stops
  | cons next rest ih =>
      by_cases stops : after node = none
      · refine ⟨[], next :: rest, rfl, ?_, stops ▸ laid⟩
        simp only [after] at stops
        split_ifs at stops with ends
        exact ends
      · rcases laid with ⟨later, enters, nextFits, restLaid⟩
        rcases enters with ⟨goesOn, rfl⟩ | ⟨ends, _⟩
        · have position := pageBase_after fits goesOn
          rcases ih nextFits restLaid with
            ⟨nodes, others, rfl, tiles, othersLaid⟩
          refine ⟨next :: nodes, others, rfl, ⟨position.1, ?_⟩, othersLaid⟩
          rw [← position.1, ← position.2]
          exact tiles
        · exact absurd ends stops

theorem Laid.tiles
    {pages : List Nat}
    {nodes : List Node}
    (laid : Laid none pages nodes) :
    ∃ tiled : List (List Node),
      nodes = tiled.flatten ∧
        List.Forall₂
          (fun page segment => Tiles (page + pageSize) page segment)
          pages tiled := by
  induction pages generalizing nodes with
  | nil =>
      cases nodes with
      | nil => exact ⟨[], rfl, List.Forall₂.nil⟩
      | cons node rest =>
          rcases laid with ⟨later, ⟨impossible, _⟩ | ⟨_, impossible, _⟩, _⟩
          · simp at impossible
          · simp at impossible
  | cons page pages ih =>
      cases nodes with
      | nil => simp [Laid] at laid
      | cons node rest =>
          rcases laid with ⟨later, enters, fits, restLaid⟩
          rcases enters with ⟨impossible, _⟩ | ⟨_, same, aligned⟩
          · simp at impossible
          · cases same
            rcases Laid.tiles_rest fits restLaid with
              ⟨segment, others, rfl, tiles, othersLaid⟩
            rcases ih othersLaid with ⟨tiled, rfl, pagesTiled⟩
            refine
              ⟨(node :: segment) :: tiled, rfl,
                List.Forall₂.cons ⟨rfl, ?_⟩ pagesTiled⟩
            rw [pageBase_of_aligned aligned] at tiles
            exact tiles

end FudanOS.Kernel.HeapTiling
