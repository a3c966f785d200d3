import FudanOS.Driver.VirtioBlk
import FudanOS.Library.RingBuffer
import Mathlib.Data.List.Perm.Lattice

/-!
# Runs of the virtio block driver

Free descriptors form a chain from `free_head`, and so do the three
descriptors of every request which was submitted and not yet freed.  Together
the chains hold every descriptor once.  A request is known to the device by
its head, which is in one place at a time: in `avail`, in the device, in
`used`, or handled, when the semaphore of its `Buf` has been posted.
-/

namespace FudanOS.Driver.VirtioRuns

open FudanOS.Library.Programs
open FudanOS.Library.Runs
open FudanOS.Library.RingBuffer
open FudanOS.Driver.VirtioBlk

/-! ## Chains -/

/-- The descriptors which are found from one on by following the flags. -/
inductive Linked (desc : Nat → Desc) : Nat → List Nat → Prop where
  | last
      {index : Nat}
      (ends_ : ¬ (desc index).HasNext) :
      Linked desc index [index]
  | next
      {index : Nat}
      {rest : List Nat}
      (more : (desc index).HasNext)
      (linked : Linked desc (desc index).next rest) :
      Linked desc index (index :: rest)

section Linked

variable
    {desc after : Nat → Desc}
    {index head : Nat}
    {chain rest : List Nat}

theorem Linked.head_eq
    (linked : Linked desc head (index :: rest)) :
    head = index := by
  cases linked <;> rfl

theorem Linked.ne_nil
    (linked : Linked desc head chain) :
    chain ≠ [] := by
  cases linked <;> exact List.cons_ne_nil _ _

theorem Linked.tail
    (linked : Linked desc head (index :: rest))
    (longer : rest ≠ []) :
    (desc index).HasNext ∧ Linked desc (desc index).next rest := by
  cases linked with
  | last ends_ => exact absurd rfl longer
  | next more linked => exact ⟨more, linked⟩

/-- Descriptors outside of a chain may change. -/
theorem Linked.frame
    (linked : Linked desc head chain)
    (same : ∀ index ∈ chain, after index = desc index) :
    Linked after head chain := by
  induction linked with
  | last ends_ =>
      apply Linked.last
      rwa [same _ List.mem_cons_self]
  | next more linked ih =>
      have here := same _ List.mem_cons_self
      apply Linked.next
      · rwa [here]
      · rw [here]
        exact ih fun index member =>
          same index (List.mem_cons_of_mem _ member)

/-- The last descriptor of a chain is made to point at another chain. -/
theorem Linked.splice
    {front : List Nat}
    {last : Nat}
    (linked : Linked desc head (front ++ [last]))
    (same : ∀ index ∈ front, after index = desc index)
    (more : (after last).HasNext)
    (behind : Linked after (after last).next rest) :
    Linked after head (front ++ last :: rest) := by
  induction front generalizing head with
  | nil =>
      have here := linked.head_eq
      subst here
      exact Linked.next more behind
  | cons first front ih =>
      have here := linked.head_eq
      subst here
      rcases linked.tail (by simp) with ⟨hasNext, tail⟩
      have first := same _ List.mem_cons_self
      refine Linked.next ?_ ?_
      · rwa [first]
      · rw [first]
        exact ih tail fun index member =>
          same index (List.mem_cons_of_mem _ member)

end Linked

/-! ## The functions -/

section Functions

variable
    {virtq : Virtq}
    {rest : List Nat}

/-- `alloc_desc` takes the first of several descriptors. -/
theorem allocDesc_eq
    {d e : Nat}
    (linked : Linked virtq.desc virtq.freeHead (d :: e :: rest))
    (free : virtq.nfree ≠ 0) :
    allocDesc virtq =
      .ok (d, { virtq with freeHead := e, nfree := virtq.nfree - 1 }) := by
  have here := linked.head_eq
  rcases linked.tail (by simp) with ⟨more, tail⟩
  unfold allocDesc
  rw [if_neg free, here]
  dsimp only
  rw [if_pos more, tail.head_eq]

/-- The loop of `free_desc` counts a chain and ends at its last descriptor. -/
theorem freeLoop_eq
    {front : List Nat}
    {head last fuel : Nat}
    (linked : Linked virtq.desc head (front ++ [last]))
    (enough : front.length < fuel) :
    freeLoop fuel virtq head =
      .ok (last,
        { virtq with
          nfree := (virtq.nfree + front.length + 1) % u16Modulus }) := by
  induction front generalizing head fuel virtq with
  | nil =>
      cases fuel with
      | zero => exact absurd enough (Nat.not_lt_zero _)
      | succ fuel =>
          have here := linked.head_eq
          subst here
          cases linked with
          | last ends_ =>
              unfold freeLoop
              rw [if_neg ends_]
              rfl
          | next more linked => exact absurd rfl linked.ne_nil
  | cons first front ih =>
      cases fuel with
      | zero => exact absurd enough (Nat.not_lt_zero _)
      | succ fuel =>
          have here := linked.head_eq
          subst here
          rcases linked.tail (by simp) with ⟨more, tail⟩
          unfold freeLoop
          rw [if_pos more]
          have later :=
            @ih
              { virtq with nfree := (virtq.nfree + 1) % u16Modulus } _ fuel
              tail (Nat.lt_of_succ_lt_succ enough)
          rw [later]
          dsimp only
          congr 3
          rw [List.length_cons, Nat.add_assoc, Nat.mod_add_mod]
          congr 1
          omega

theorem hasNext_dataFlags (op : Diskop) :
    dataFlags op &&& virtqDescFNext ≠ 0 := by
  cases op <;> decide

section Filled

variable
    {desc : Nat → Desc}
    {buf a b c index : Nat}
    {op : Diskop}

theorem fillHeader_of_ne (notA : index ≠ a) :
    fillHeader desc buf a index = desc index :=
  Function.update_of_ne notA _ _

theorem fillData_of_ne (notA : index ≠ a) (notB : index ≠ b) :
    fillData (fillHeader desc buf a) buf op a b index = desc index := by
  unfold fillData
  rw [Function.update_of_ne notB, Function.update_of_ne notA,
    fillHeader_of_ne notA]

theorem fillStatus_of_ne
    (notA : index ≠ a)
    (notB : index ≠ b)
    (notC : index ≠ c) :
    fillStatus (fillData (fillHeader desc buf a) buf op a b) a b c index =
      desc index := by
  unfold fillStatus
  rw [Function.update_of_ne notC, Function.update_of_ne notB,
    fillData_of_ne notA notB]

/-- The three descriptors of a request form a chain. -/
theorem linked_filled
    (ab : a ≠ b)
    (ac : a ≠ c)
    (bc : b ≠ c) :
    Linked (fillStatus (fillData (fillHeader desc buf a) buf op a b) a b c) a
      [a, b, c] := by
  have atA :
      fillStatus (fillData (fillHeader desc buf a) buf op a b) a b c a =
        ⟨.hdr buf, 16, virtqDescFNext, b⟩ := by
    unfold fillStatus fillData fillHeader
    rw [Function.update_of_ne ac, Function.update_of_ne ab,
      Function.update_of_ne ab, Function.update_self, Function.update_self]
  have atB :
      fillStatus (fillData (fillHeader desc buf a) buf op a b) a b c b =
        ⟨.data buf, 512, dataFlags op, c⟩ := by
    unfold fillStatus fillData
    rw [Function.update_of_ne bc, Function.update_self, Function.update_self]
  have atC :
      fillStatus (fillData (fillHeader desc buf a) buf op a b) a b c c =
        ⟨.status a, 1, virtqDescFWrite, 0⟩ :=
    Function.update_self _ _ _
  refine Linked.next ?_ ?_
  · rw [atA]
    change virtqDescFNext &&& virtqDescFNext ≠ 0
    decide
  · rw [atA]
    refine Linked.next ?_ ?_
    · rw [atB]
      exact hasNext_dataFlags op
    · rw [atB]
      refine Linked.last ?_
      rw [atC]
      change ¬ virtqDescFWrite &&& virtqDescFNext ≠ 0
      decide

end Filled

/-- What the section which submits a request leaves. -/
structure Submits
    (virtq target : Virtq)
    (buf : Nat)
    (chain : Chain)
    (free : List Nat) : Prop where
  kept :
    ∀ index, index ≠ chain.d0 → index ≠ chain.d1 → index ≠ chain.d2 →
      target.desc index = virtq.desc index
  linked : Linked target.desc chain.d0 [chain.d0, chain.d1, chain.d2]
  nfree : target.nfree = free.length
  free : Linked target.desc target.freeHead free
  avail :
    target.avail =
      { idx := (virtq.avail.idx + 1) % u16Modulus
        ring :=
          Function.update virtq.avail.ring (virtq.avail.idx % nqueue)
            chain.d0 }
  info :
    target.info =
      Function.update virtq.info chain.d0
        { virtq.info chain.d0 with buf := some buf }
  used : target.used = virtq.used
  lastUsedIdx : target.lastUsedIdx = virtq.lastUsedIdx

theorem submit_spec
    {a b c d : Nat}
    (linked :
      Linked virtq.desc virtq.freeHead (a :: b :: c :: d :: rest))
    (count : virtq.nfree = rest.length + 4)
    (distinct : (a :: b :: c :: d :: rest).Nodup)
    (buf : Nat)
    (op : Diskop) :
    ∃ target,
      submit virtq buf op = .ok (⟨a, b, c⟩, target) ∧
        Submits virtq target buf ⟨a, b, c⟩ (d :: rest) := by
  have apart :
      a ≠ b ∧ a ≠ c ∧ b ≠ c ∧
        ∀ index ∈ d :: rest, index ≠ a ∧ index ≠ b ∧ index ≠ c := by
    simp only [List.nodup_cons, List.mem_cons, not_or] at distinct
    rcases distinct with
      ⟨⟨ab, ac, ad, aRest⟩, ⟨bc, bd, bRest⟩, ⟨cd, cRest⟩, _⟩
    refine ⟨ab, ac, bc, ?_⟩
    intro index member
    rcases List.mem_cons.mp member with rfl | later
    · exact ⟨fun same => ad same.symm, fun same => bd same.symm,
        fun same => cd same.symm⟩
    · refine ⟨?_, ?_, ?_⟩
      · rintro rfl
        exact aRest later
      · rintro rfl
        exact bRest later
      · rintro rfl
        exact cRest later
  rcases apart with ⟨ab, ac, bc, others⟩
  have first := allocDesc_eq linked (by omega)
  have tail := (linked.tail (by simp)).2
  have second : Linked virtq.desc b (b :: c :: d :: rest) :=
    tail.head_eq ▸ tail
  have third : Linked virtq.desc c (c :: d :: rest) := by
    have later := (second.tail (by simp)).2
    exact later.head_eq ▸ later
  have fourth : Linked virtq.desc d (d :: rest) := by
    have later := (third.tail (by simp)).2
    exact later.head_eq ▸ later
  have notA : ∀ index ∈ b :: c :: d :: rest, index ≠ a := by
    intro index member
    exact ne_of_mem_of_not_mem member (List.nodup_cons.mp distinct).1
  have notB : ∀ index ∈ c :: d :: rest, index ≠ b := by
    intro index member
    exact ne_of_mem_of_not_mem member
      (List.nodup_cons.mp (List.nodup_cons.mp distinct).2).1
  unfold submit
  rw [first]
  simp only [bind, Except.bind]
  rw [@allocDesc_eq _ (d :: rest) b c]
  · simp only
    rw [@allocDesc_eq _ rest c d]
    · refine ⟨_, rfl, ?_⟩
      refine ⟨?_, linked_filled ab ac bc, ?_, ?_, rfl, rfl, rfl, rfl⟩
      · intro index notA notB notC
        exact fillStatus_of_ne notA notB notC
      · change virtq.nfree - 1 - 1 - 1 = rest.length + 1
        omega
      · refine fourth.frame ?_
        intro index member
        rcases others index member with ⟨notA, notB, notC⟩
        exact fillStatus_of_ne notA notB notC
    · refine third.frame ?_
      intro index member
      exact fillData_of_ne
        (notA index (List.mem_cons_of_mem _ member)) (notB index member)
    · change virtq.nfree - 1 - 1 ≠ 0
      omega
  · refine second.frame ?_
    intro index member
    exact fillHeader_of_ne (notA index member)
  · change virtq.nfree - 1 ≠ 0
    omega

/-- With two free descriptors the third allocation fails. -/
theorem submit_two
    {a b : Nat}
    (linked : Linked virtq.desc virtq.freeHead [a, b])
    (count : virtq.nfree = 2)
    (buf : Nat)
    (op : Diskop) :
    submit virtq buf op = .error .noDescriptor := by
  have first := allocDesc_eq linked (by omega)
  unfold submit
  rw [first]
  simp only [bind, Except.bind, allocDesc]
  rw [if_neg (by omega)]
  dsimp only
  rw [if_pos (by split_ifs <;> dsimp only <;> omega)]

/-- What `free_desc` leaves of a chain and the free descriptors. -/
structure Frees
    (virtq target : Virtq)
    (chain free : List Nat) : Prop where
  kept : ∀ index ∉ chain, target.desc index = virtq.desc index
  linked : Linked target.desc target.freeHead (chain ++ free)
  nfree : target.nfree = chain.length + free.length
  avail : target.avail = virtq.avail
  used : target.used = virtq.used
  lastUsedIdx : target.lastUsedIdx = virtq.lastUsedIdx
  info : target.info = virtq.info

theorem freeDesc_spec
    {front free : List Nat}
    {head last : Nat}
    (linked : Linked virtq.desc head (front ++ [last]))
    (distinct : (front ++ [last]).Nodup)
    (freeLinked : Linked virtq.desc virtq.freeHead free)
    (count : virtq.nfree = free.length)
    (apart : ∀ index ∈ free, index ∉ front ++ [last])
    (small : (front ++ [last]).length + free.length < u16Modulus) :
    ∃ target,
      freeDesc virtq head = .ok target ∧
        Frees virtq target (front ++ [last]) free := by
  have notEmpty : virtq.nfree ≠ 0 := by
    rw [count]
    exact fun zero =>
      freeLinked.ne_nil (List.eq_nil_of_length_eq_zero zero)
  have shorter : front.length < u16Modulus := by
    rw [List.length_append] at small
    omega
  unfold freeDesc
  rw [freeLoop_eq linked shorter]
  simp only [bind, Except.bind, decide_eq_false notEmpty, Bool.not_false,
    if_true]
  refine ⟨_, rfl, ?_⟩
  have others :
      ∀ (flagged pointed : Desc), ∀ index, index ≠ last →
        Function.update (Function.update virtq.desc last flagged) last
          pointed index = virtq.desc index := by
    intro flagged pointed index different
    rw [Function.update_of_ne different, Function.update_of_ne different]
  have lastApart : ∀ index ∈ front, index ≠ last := by
    intro index member
    rintro rfl
    exact (List.nodup_append.mp distinct).2.2 index member index
      List.mem_cons_self rfl
  refine ⟨?_, ?_, ?_, rfl, rfl, rfl, rfl⟩
  · intro index outside
    apply others
    rintro rfl
    exact outside (List.mem_append_right _ List.mem_cons_self)
  · rw [List.append_assoc]
    refine linked.splice ?_ ?_ ?_
    · intro index member
      exact others _ _ index (lastApart index member)
    · unfold Virtq.setDesc
      dsimp only
      rw [Function.update_self, Function.update_self]
      change virtqDescFNext &&& virtqDescFNext ≠ 0
      decide
    · unfold Virtq.setDesc
      dsimp only
      rw [Function.update_self, Function.update_self]
      refine freeLinked.frame ?_
      intro index member
      apply others
      rintro rfl
      exact apart index member
        (List.mem_append_right _ List.mem_cons_self)
  · change (virtq.nfree + front.length + 1) % u16Modulus = _
    rw [List.length_append, List.length_singleton] at small ⊢
    rw [Nat.mod_eq_of_lt (by omega)]
    omega

end Functions

/-! ## Requests in flight -/

/-- A request which was submitted and not yet freed. -/
structure Request where
  buf : Nat
  chain : Chain
  deriving DecidableEq

/-- The descriptors of a request. -/
def Request.descs (request : Request) : List Nat :=
  [request.chain.d0, request.chain.d1, request.chain.d2]

/-- The descriptor by which the device knows a request. -/
def Request.head (request : Request) : Nat :=
  request.chain.d0

/--
What holds between two sections.  The heads in `avail`, in `used` and those
whose semaphores have been posted are listed apart; `fetched` and `handled`
count all the heads which were taken from the rings.
-/
structure Consistent
    (system : System)
    (free : List Nat)
    (requests : List Request)
    (offered returned posted : List Nat)
    (fetched handled : Nat) : Prop where
  linked : Linked system.virtq.desc system.virtq.freeHead free
  nfree : system.virtq.nfree = free.length
  calls :
    ∀ request,
      request ∈ requests ↔
        system.calls request.buf = some (.waiting request.chain)
  all :
    (free ++ requests.flatMap Request.descs).Perm
      (List.range nqueue)
  chains :
    ∀ request ∈ requests,
      Linked system.virtq.desc request.head request.descs
  avail :
    Contains nqueue u16Modulus system.virtq.avail.ring system.lastAvailIdx
      system.virtq.avail.idx fetched offered
  used :
    Contains nqueue u16Modulus system.virtq.used.ring
      system.virtq.lastUsedIdx system.virtq.used.idx handled returned
  heads :
    (offered ++ (system.pending ++ (returned ++ posted))).Perm
      (requests.map Request.head)
  open_ :
    ∀ request ∈ requests, request.head ∉ posted →
      (system.virtq.info request.head).buf = some request.buf ∧
        system.sem request.buf = 0
  done :
    ∀ request ∈ requests, request.head ∈ posted →
      system.sem request.buf = 1
  entered :
    ∀ buf op, system.calls buf = some (.entered op) → system.sem buf = 0

section Consistent

variable
    {system target : System}
    {free offered returned posted : List Nat}
    {requests : List Request}
    {fetched handled : Nat}

theorem Consistent.nodup
    (consistent :
      Consistent system free requests offered returned posted fetched
        handled) :
    (free ++ requests.flatMap Request.descs).Nodup :=
  consistent.all.nodup_iff.mpr List.nodup_range

theorem length_flatMap_descs (requests : List Request) :
    (requests.flatMap Request.descs).length = 3 * requests.length := by
  induction requests with
  | nil => rfl
  | cons request requests ih =>
      rw [List.flatMap_cons, List.length_append, ih, List.length_cons]
      change 3 + _ = _
      omega

/-- Every request has three descriptors, and the others are free. -/
theorem Consistent.length
    (consistent :
      Consistent system free requests offered returned posted fetched
        handled) :
    free.length + 3 * requests.length = nqueue := by
  have length := consistent.all.length_eq
  rwa [List.length_append, length_flatMap_descs, List.length_range]
    at length

theorem Consistent.disjoint
    (consistent :
      Consistent system free requests offered returned posted fetched
        handled)
    {request other : Request}
    (member : request ∈ requests)
    (otherMember : other ∈ requests)
    (different : request ≠ other) :
    request.descs.Disjoint other.descs := by
  have apart :=
    (List.nodup_flatMap.mp (List.nodup_append.mp consistent.nodup).2.1).2
  have symmetric : Std.Symm (Function.onFun List.Disjoint Request.descs) :=
    ⟨fun _ _ disjoint => List.Disjoint.symm disjoint⟩
  exact apart.forall member otherMember different

theorem Consistent.distinct
    (consistent :
      Consistent system free requests offered returned posted fetched
        handled)
    {request : Request}
    (member : request ∈ requests) :
    request.descs.Nodup :=
  (List.nodup_flatMap.mp (List.nodup_append.mp consistent.nodup).2.1).1
    request member

theorem Consistent.not_free
    (consistent :
      Consistent system free requests offered returned posted fetched
        handled)
    {request : Request}
    (member : request ∈ requests)
    {index : Nat}
    (inside : index ∈ request.descs) :
    index ∉ free := by
  intro isFree
  exact (List.nodup_append.mp consistent.nodup).2.2 index isFree index
    (List.mem_flatMap.mpr ⟨request, member, inside⟩) rfl

theorem Request.head_mem (request : Request) :
    request.head ∈ request.descs :=
  List.mem_cons_self

/-- A request is known by its head. -/
theorem Consistent.eq_of_head
    (consistent :
      Consistent system free requests offered returned posted fetched
        handled)
    {request other : Request}
    (member : request ∈ requests)
    (otherMember : other ∈ requests)
    (same : request.head = other.head) :
    request = other := by
  by_contra different
  exact consistent.disjoint member otherMember different request.head_mem
    (same ▸ other.head_mem)

theorem Consistent.requests_nodup
    (consistent :
      Consistent system free requests offered returned posted fetched
        handled) :
    requests.Nodup := by
  have apart :=
    (List.nodup_flatMap.mp (List.nodup_append.mp consistent.nodup).2.1).2
  refine apart.imp ?_
  rintro request _ disjoint rfl
  exact disjoint request.head_mem request.head_mem

theorem Consistent.heads_nodup
    (consistent :
      Consistent system free requests offered returned posted fetched
        handled) :
    (offered ++ (system.pending ++ (returned ++ posted))).Nodup := by
  rw [consistent.heads.nodup_iff]
  refine List.Nodup.map_on ?_ consistent.requests_nodup
  intro request member other otherMember same
  exact consistent.eq_of_head member otherMember same

theorem Consistent.exists_request
    (consistent :
      Consistent system free requests offered returned posted fetched
        handled)
    {head : Nat}
    (member : head ∈ offered ++ (system.pending ++ (returned ++ posted))) :
    ∃ request ∈ requests, request.head = head :=
  List.mem_map.mp (consistent.heads.mem_iff.mp member)

/-- A `Buf` has one request. -/
theorem Consistent.eq_of_buf
    (consistent :
      Consistent system free requests offered returned posted fetched
        handled)
    {request other : Request}
    (member : request ∈ requests)
    (otherMember : other ∈ requests)
    (same : request.buf = other.buf) :
    request = other := by
  have first := (consistent.calls request).mp member
  have second := (consistent.calls other).mp otherMember
  rw [same, second] at first
  rcases request with ⟨buf, chain⟩
  rcases other with ⟨otherBuf, otherChain⟩
  dsimp only at first same
  cases same
  cases first
  rfl

/-! ## Steps -/

theorem Consistent.enter
    (consistent :
      Consistent system free requests offered returned posted fetched
        handled)
    {buf : Nat}
    (unused : system.calls buf = none)
    {flags : UInt32}
    (taken : step system (.enter buf flags) = .ok target) :
    Consistent target free requests offered returned posted fetched
      handled := by
  have others : ∀ request ∈ requests, request.buf ≠ buf := by
    rintro request member rfl
    have waits := (consistent.calls request).mp member
    rw [unused] at waits
    cases waits
  cases taken
  refine ⟨consistent.linked, consistent.nfree, ?_, consistent.all,
    consistent.chains, consistent.avail, consistent.used, consistent.heads,
    ?_, ?_, ?_⟩
  · intro request
    by_cases same : request.buf = buf
    · dsimp only
      rw [same, Function.update_self]
      constructor
      · intro member
        exact absurd same (others request member)
      · intro waits
        cases waits
    · dsimp only
      rw [Function.update_of_ne same]
      exact consistent.calls request
  · intro request member notPosted
    dsimp only
    rw [Function.update_of_ne (others request member)]
    exact consistent.open_ request member notPosted
  · intro request member isPosted
    dsimp only
    rw [Function.update_of_ne (others request member)]
    exact consistent.done request member isPosted
  · intro other op
    dsimp only
    by_cases same : other = buf
    · rw [same, Function.update_self, Function.update_self]
      intro _
      rfl
    · rw [Function.update_of_ne same, Function.update_of_ne same]
      exact consistent.entered other op

/-- At most two requests are in flight, or the third allocation fails. -/
theorem Consistent.submit_cases
    (consistent :
      Consistent system free requests offered returned posted fetched
        handled)
    (buf : Nat)
    (op : Diskop) :
    (2 ≤ requests.length ∧
      submit system.virtq buf op = .error .noDescriptor) ∨
      (requests.length < 2 ∧
        ∃ chain rest virtq,
          free = [chain.d0, chain.d1, chain.d2] ++ rest ∧
            submit system.virtq buf op = .ok (chain, virtq) ∧
              Submits system.virtq virtq buf chain rest) := by
  have length := consistent.length
  have distinct := (List.nodup_append.mp consistent.nodup).1
  have linked := consistent.linked
  have nfree := consistent.nfree
  match free, length, distinct, linked, nfree with
  | [], _, _, linked, _ => exact absurd rfl linked.ne_nil
  | [_], length, _, _, _ =>
      simp only [List.length_singleton, nqueue] at length
      omega
  | [a, b], length, _, linked, nfree =>
      simp only [List.length_cons, List.length_nil, nqueue] at length
      exact Or.inl ⟨by omega, submit_two linked nfree buf op⟩
  | [_, _, _], length, _, _, _ =>
      simp only [List.length_cons, List.length_nil, nqueue] at length
      omega
  | a :: b :: c :: d :: rest, length, distinct, linked, nfree =>
      simp only [List.length_cons, nqueue] at length
      rcases submit_spec linked nfree distinct buf op with
        ⟨virtq, submitted, submits⟩
      exact Or.inr ⟨by omega, ⟨a, b, c⟩, d :: rest, virtq, rfl, submitted,
        submits⟩

theorem Consistent.submitted
    (consistent :
      Consistent system free requests offered returned posted fetched
        handled)
    {buf : Nat}
    {op : Diskop}
    (entering : system.calls buf = some (.entered op))
    (few : requests.length < 2)
    {chain : Chain}
    {rest : List Nat}
    {virtq : Virtq}
    (isFree : free = [chain.d0, chain.d1, chain.d2] ++ rest)
    (submits : Submits system.virtq virtq buf chain rest) :
    Consistent
      { system with
        virtq := virtq
        calls := Function.update system.calls buf (some (.waiting chain)) }
      rest (⟨buf, chain⟩ :: requests) (offered ++ [chain.d0]) returned posted
      fetched handled := by
  have others : ∀ request ∈ requests, request.buf ≠ buf := by
    rintro request member rfl
    have waits := (consistent.calls request).mp member
    rw [entering] at waits
    cases waits
  have outside :
      ∀ request ∈ requests, ∀ index ∈ request.descs,
        index ≠ chain.d0 ∧ index ≠ chain.d1 ∧ index ≠ chain.d2 := by
    intro request member index inside
    have notFree := consistent.not_free member inside
    rw [isFree] at notFree
    simp only [List.cons_append, List.nil_append, List.mem_cons,
      not_or] at notFree
    exact ⟨notFree.1, notFree.2.1, notFree.2.2.1⟩
  have newHead :
      chain.d0 ∉ offered ++ (system.pending ++ (returned ++ posted)) := by
    intro member
    rcases consistent.exists_request member with ⟨request, inside, same⟩
    exact (outside request inside request.head request.head_mem).1 same
  have room : offered.length < nqueue := by
    have length := consistent.heads.length_eq
    simp only [List.length_append, List.length_map] at length
    simp only [nqueue]
    omega
  refine ⟨submits.free, submits.nfree, ?_, ?_, ?_, ?_, ?_, ?_, ?_, ?_, ?_⟩
  · intro request
    dsimp only
    rw [List.mem_cons]
    by_cases same : request.buf = buf
    · rw [same, Function.update_self]
      constructor
      · rintro (rfl | member)
        · rfl
        · exact absurd same (others request member)
      · intro waits
        rcases request with ⟨_, _⟩
        cases same
        cases waits
        exact Or.inl rfl
    · rw [Function.update_of_ne same, ← consistent.calls request]
      constructor
      · rintro (rfl | member)
        · exact absurd rfl same
        · exact member
      · exact Or.inr
  · rw [List.flatMap_cons]
    refine List.Perm.trans ?_ consistent.all
    rw [isFree, List.append_assoc]
    exact List.perm_append_comm_assoc _ _ _
  · intro request member
    rcases List.mem_cons.mp member with rfl | old
    · exact submits.linked
    · refine (consistent.chains request old).frame ?_
      intro index inside
      rcases outside request old index inside with ⟨notA, notB, notC⟩
      exact submits.kept index notA notB notC
  · dsimp only
    rw [submits.avail]
    refine (consistent.avail.overwrite (by decide) room chain.d0).extend
      (by decide) room ?_
    exact Function.update_self _ _ _
  · dsimp only
    rw [submits.used, submits.lastUsedIdx]
    exact consistent.used
  · rw [List.map_cons, List.append_assoc]
    exact List.perm_middle.trans (consistent.heads.cons _)
  · intro request member notPosted
    dsimp only
    rw [submits.info]
    rcases List.mem_cons.mp member with rfl | old
    · constructor
      · rw [Request.head, Function.update_self]
      · exact consistent.entered buf op entering
    · rw [Function.update_of_ne
        (outside request old request.head request.head_mem).1]
      exact consistent.open_ request old notPosted
  · intro request member isPosted
    rcases List.mem_cons.mp member with rfl | old
    · refine absurd ?_ newHead
      exact List.mem_append_right _
        (List.mem_append_right _ (List.mem_append_right _ isPosted))
    · exact consistent.done request old isPosted
  · intro other otherOp
    dsimp only
    by_cases same : other = buf
    · rw [same, Function.update_self]
      intro waits
      cases waits
    · rw [Function.update_of_ne same]
      exact consistent.entered other otherOp

theorem Consistent.submit
    (consistent :
      Consistent system free requests offered returned posted fetched
        handled)
    {buf : Nat}
    (taken : step system (.submit buf) = .ok target) :
    ∃ chain rest,
      free = [chain.d0, chain.d1, chain.d2] ++ rest ∧
        Consistent target rest (⟨buf, chain⟩ :: requests)
          (offered ++ [chain.d0]) returned posted fetched handled := by
  simp only [step] at taken
  split at taken
  · rename_i op entering
    rcases consistent.submit_cases buf op with
      ⟨_, failed⟩ | ⟨few, chain, rest, virtq, isFree, returns, submits⟩
    · rw [failed] at taken
      cases taken
    · rw [returns] at taken
      cases taken
      exact ⟨chain, rest, isFree,
        consistent.submitted entering few isFree submits⟩
  · cases taken

/-- Every head has a request, so a ring never fills up. -/
theorem Consistent.few
    (consistent :
      Consistent system free requests offered returned posted fetched
        handled) :
    (offered ++ (system.pending ++ (returned ++ posted))).length ≤ 2 := by
  have length := consistent.length
  rw [consistent.heads.length_eq, List.length_map]
  simp only [nqueue] at length
  omega

theorem Consistent.fetch
    (consistent :
      Consistent system free requests offered returned posted fetched
        handled)
    (taken : step system .fetch = .ok target) :
    ∃ head rest,
      offered = head :: rest ∧
        Consistent target free requests rest returned posted (fetched + 1)
          handled := by
  simp only [step] at taken
  split_ifs at taken with unread
  cases taken
  cases offered with
  | nil =>
      exact absurd
        ((consistent.avail.read_eq_write_iff (by decide)).mpr rfl) unread
  | cons head rest =>
      refine ⟨head, rest, rfl, consistent.linked, consistent.nfree,
        consistent.calls, consistent.all, consistent.chains, ?_,
        consistent.used, ?_, consistent.open_, consistent.done,
        consistent.entered⟩
      · exact consistent.avail.pop
      · dsimp only
        rw [consistent.avail.front (by decide)]
        exact List.perm_middle.trans consistent.heads

theorem storeStatus_buf
    (virtq : Virtq)
    (head : Nat)
    (status : UInt8)
    (index : Nat) :
    ((storeStatus virtq head status).info index).buf =
      (virtq.info index).buf := by
  unfold storeStatus
  dsimp only
  split
  · rename_i d0 _
    by_cases same : index = d0
    · dsimp only
      rw [same, Function.update_self]
    · dsimp only
      rw [Function.update_of_ne same]
  · rfl

theorem storeStatus_eq
    (virtq : Virtq)
    (head : Nat)
    (status : UInt8) :
    ∃ info,
      storeStatus virtq head status = { virtq with info := info } := by
  unfold storeStatus
  dsimp only
  split
  · exact ⟨_, rfl⟩
  · exact ⟨virtq.info, rfl⟩

theorem Consistent.complete
    (consistent :
      Consistent system free requests offered returned posted fetched
        handled)
    {head : Nat}
    {status : UInt8}
    (taken : step system (.complete head status) = .ok target) :
    Consistent target free requests offered (returned ++ [head]) posted
      fetched handled := by
  simp only [step] at taken
  split_ifs at taken with member
  have bufs := storeStatus_buf system.virtq head status
  rcases storeStatus_eq system.virtq head status with ⟨info, stored⟩
  rw [stored] at bufs taken
  cases taken
  have few := consistent.few
  have room : returned.length < nqueue := by
    simp only [List.length_append, nqueue] at few ⊢
    omega
  refine ⟨consistent.linked, consistent.nfree, consistent.calls,
    consistent.all, consistent.chains, consistent.avail, ?_, ?_, ?_,
    consistent.done, consistent.entered⟩
  · refine (consistent.used.overwrite (by decide) room head).extend
      (by decide) room ?_
    exact Function.update_self _ _ _
  · refine List.Perm.trans ?_ consistent.heads
    refine List.Perm.append_left offered ?_
    dsimp only
    refine List.Perm.trans ?_
      (List.Perm.append_right _ (List.perm_cons_erase member).symm)
    rw [List.append_assoc, List.cons_append]
    refine List.Perm.trans ?_ List.perm_middle
    exact List.Perm.append_left _ List.perm_middle
  · intro request inside notPosted
    dsimp only
    rw [bufs]
    exact consistent.open_ request inside notPosted

/-- A round of `virtio_blk_intr`. -/
theorem Consistent.handle
    {head : Nat}
    {rest : List Nat}
    (consistent :
      Consistent system free requests offered (head :: rest) posted fetched
        handled) :
    ∃ request ∈ requests,
      request.head = head ∧
        (system.virtq.info head).buf = some request.buf ∧
          Consistent (handle system head request.buf) free requests offered
            rest (head :: posted) fetched (handled + 1) := by
  have member :
      head ∈ offered ++ (system.pending ++ (head :: rest ++ posted)) :=
    List.mem_append_right _
      (List.mem_append_right _
        (List.mem_append_left _ List.mem_cons_self))
  rcases consistent.exists_request member with ⟨request, inside, isHead⟩
  have notPosted : head ∉ posted := by
    have distinct :=
      (List.nodup_append.mp
        (List.nodup_append.mp consistent.heads_nodup).2.1).2.1
    rw [List.cons_append, List.nodup_cons] at distinct
    exact fun isPosted => distinct.1 (List.mem_append_right _ isPosted)
  rcases consistent.open_ request inside (isHead ▸ notPosted) with
    ⟨isBuf, notYet⟩
  refine ⟨request, inside, isHead, isHead ▸ isBuf, ?_⟩
  have bufApart :
      ∀ other ∈ requests, other.head ≠ head → other.buf ≠ request.buf := by
    intro other otherInside different same
    have equal := consistent.eq_of_buf otherInside inside same
    exact different (equal ▸ isHead)
  refine ⟨consistent.linked, consistent.nfree, consistent.calls,
    consistent.all, consistent.chains, consistent.avail,
    consistent.used.pop, ?_, ?_, ?_, ?_⟩
  · refine List.Perm.trans ?_ consistent.heads
    refine List.Perm.append_left offered (List.Perm.append_left _ ?_)
    exact List.perm_middle
  · intro other otherInside notNow
    have different : other.head ≠ head :=
      List.ne_of_not_mem_cons notNow
    have waits :=
      consistent.open_ other otherInside
        (List.not_mem_of_not_mem_cons notNow)
    unfold VirtioBlk.handle
    dsimp only
    rw [Function.update_of_ne different,
      Function.update_of_ne (bufApart other otherInside different)]
    exact waits
  · intro other otherInside isPosted
    unfold VirtioBlk.handle
    dsimp only
    by_cases same : other.head = head
    · have equal :=
        consistent.eq_of_head otherInside inside (same.trans isHead.symm)
      rw [equal, Function.update_self, notYet]
    · rw [Function.update_of_ne (bufApart other otherInside same)]
      exact consistent.done other otherInside
        (List.mem_of_ne_of_mem same isPosted)
  · intro buf op entering
    unfold VirtioBlk.handle
    dsimp only
    rw [Function.update_of_ne]
    · exact consistent.entered buf op entering
    · rintro rfl
      have waits := (consistent.calls request).mp inside
      rw [show system.calls request.buf = _ from entering] at waits
      cases waits

/-- What the loop of `virtio_blk_intr` leaves. -/
def Handled
    (system target : System)
    (free : List Nat)
    (requests : List Request)
    (offered returned posted : List Nat)
    (fetched handled : Nat) : Prop :=
  Consistent target free requests offered [] (returned.reverse ++ posted)
      fetched (handled + returned.length) ∧
    target.calls = system.calls ∧
      ∀ buf, (∀ request ∈ requests, request.buf ≠ buf) →
        target.sem buf = system.sem buf

theorem Consistent.intrLoop
    (consistent :
      Consistent system free requests offered returned posted fetched
        handled)
    {fuel : Nat}
    (enough : returned.length < fuel) :
    VirtioBlk.intrLoop fuel system = .error .badStatus ∨
      ∃ target,
        VirtioBlk.intrLoop fuel system = .ok target ∧
          Handled system target free requests offered returned posted
            fetched handled := by
  induction returned generalizing system posted handled fuel with
  | nil =>
      cases fuel with
      | zero => exact absurd enough (Nat.not_lt_zero _)
      | succ fuel =>
          have same :=
            (consistent.used.read_eq_write_iff (by decide)).mpr rfl
          unfold VirtioBlk.intrLoop
          rw [if_neg (not_not.mpr same)]
          exact Or.inr ⟨system, rfl, consistent, rfl, fun _ _ => rfl⟩
  | cons head rest ih =>
      cases fuel with
      | zero => exact absurd enough (Nat.not_lt_zero _)
      | succ fuel =>
          have different :
              system.virtq.lastUsedIdx ≠ system.virtq.used.idx := by
            intro same
            have empty :=
              (consistent.used.read_eq_write_iff (by decide)).mp same
            cases empty
          rcases consistent.handle with
            ⟨request, inside, isHead, isBuf, next⟩
          unfold VirtioBlk.intrLoop
          dsimp only
          rw [if_pos different, consistent.used.front (by decide)]
          by_cases bad : (system.virtq.info head).status ≠ 0
          · rw [if_pos bad]
            exact Or.inl rfl
          · rw [if_neg bad, isBuf]
            dsimp only
            rcases ih next (Nat.lt_of_succ_lt_succ enough) with
              stopped | ⟨target, returns, kept, calls, unposted⟩
            · exact Or.inl stopped
            · refine Or.inr ⟨target, returns, ?_, calls, ?_⟩
              · have counted :
                    handled + 1 + rest.length =
                      handled + (head :: rest).length := by
                  rw [List.length_cons]
                  omega
                rw [List.reverse_cons, List.append_assoc, ← counted]
                exact kept
              · intro buf apart
                rw [unposted buf apart]
                exact Function.update_of_ne
                  (fun same => apart request inside same.symm) _ _

theorem Consistent.virtioBlkIntr
    (consistent :
      Consistent system free requests offered returned posted fetched
        handled) :
    VirtioBlk.virtioBlkIntr system = .error .badStatus ∨
      ∃ target,
        VirtioBlk.virtioBlkIntr system = .ok target ∧
          Handled system target free requests offered returned posted
            fetched handled :=
  consistent.intrLoop
    (Nat.lt_of_le_of_lt consistent.used.bounded (by decide))

/-- A call which goes on frees its descriptors. -/
theorem Consistent.conclude
    (consistent :
      Consistent system free requests offered returned posted fetched
        handled)
    {buf : Nat}
    {chain : Chain}
    (waits : system.calls buf = some (.waiting chain))
    (positive : 0 < system.sem buf) :
    ∃ virtq,
      conclude system.virtq chain.d0 = .ok virtq ∧
        Consistent
          { system with
            virtq := virtq
            calls := Function.update system.calls buf none
            sem := Function.update system.sem buf (system.sem buf - 1) }
          ([chain.d0, chain.d1, chain.d2] ++ free)
          (requests.erase ⟨buf, chain⟩) offered returned
          (posted.erase chain.d0) fetched handled := by
  have inside : (⟨buf, chain⟩ : Request) ∈ requests :=
    (consistent.calls ⟨buf, chain⟩).mpr waits
  have isPosted : chain.d0 ∈ posted := by
    by_contra notPosted
    have zero := (consistent.open_ _ inside notPosted).2
    dsimp only at zero
    omega
  have erased :
      ∀ other,
        other ∈ requests.erase ⟨buf, chain⟩ ↔
          other ≠ ⟨buf, chain⟩ ∧ other ∈ requests := by
    intro other
    exact consistent.requests_nodup.mem_erase_iff
  have bufApart :
      ∀ other ∈ requests.erase ⟨buf, chain⟩, other.buf ≠ buf := by
    intro other member same
    rcases (erased other).mp member with ⟨different, old⟩
    exact different (consistent.eq_of_buf old inside same)
  have headApart :
      ∀ other ∈ requests.erase ⟨buf, chain⟩, other.head ≠ chain.d0 := by
    intro other member same
    rcases (erased other).mp member with ⟨different, old⟩
    exact different (consistent.eq_of_head old inside same)
  have length := consistent.length
  have small :
      ([chain.d0, chain.d1] ++ [chain.d2]).length + free.length <
        u16Modulus := by
    simp only [List.length_append, List.length_cons, List.length_nil,
      nqueue, u16Modulus] at length ⊢
    omega
  rcases @freeDesc_spec
      { system.virtq with
        info :=
          Function.update system.virtq.info chain.d0
            { system.virtq.info chain.d0 with done := 0 } }
      [chain.d0, chain.d1] free chain.d0 chain.d2
      (consistent.chains _ inside) (consistent.distinct inside)
      consistent.linked consistent.nfree
      (fun index isFree member => consistent.not_free inside member isFree)
      small with
    ⟨virtq, returns, frees⟩
  refine ⟨virtq, returns, frees.linked, ?_, ?_, ?_, ?_, ?_, ?_, ?_, ?_, ?_,
    ?_⟩
  · rw [frees.nfree]
    exact List.length_append.symm
  · intro request
    rw [erased]
    dsimp only
    by_cases same : request.buf = buf
    · rw [same, Function.update_self]
      constructor
      · rintro ⟨different, old⟩
        exact absurd (consistent.eq_of_buf old inside same) different
      · intro none
        cases none
    · rw [Function.update_of_ne same, ← consistent.calls request]
      constructor
      · exact And.right
      · intro member
        refine ⟨?_, member⟩
        rintro rfl
        exact same rfl
  · refine List.Perm.trans ?_ consistent.all
    have split :
        (requests.flatMap Request.descs).Perm
          ([chain.d0, chain.d1, chain.d2] ++
            (requests.erase ⟨buf, chain⟩).flatMap Request.descs) :=
      (List.perm_cons_erase inside).flatMap_right Request.descs
    refine List.Perm.trans ?_ (List.Perm.append_left free split.symm)
    rw [List.append_assoc]
    exact List.perm_append_comm_assoc _ _ _
  · intro request member
    rcases (erased request).mp member with ⟨different, old⟩
    refine (consistent.chains request old).frame ?_
    intro index isDesc
    apply frees.kept
    intro mine
    exact consistent.disjoint old inside different isDesc mine
  · rw [frees.avail]
    exact consistent.avail
  · rw [frees.used, frees.lastUsedIdx]
    exact consistent.used
  · have whole :=
      consistent.heads.trans
        ((List.perm_cons_erase inside).map Request.head)
    have parts :
        (chain.d0 ::
          (offered ++
            (system.pending ++
              (returned ++ posted.erase chain.d0)))).Perm
          (offered ++ (system.pending ++ (returned ++ posted))) := by
      rw [List.perm_iff_count]
      intro index
      have counted := (List.perm_cons_erase isPosted).count_eq index
      simp only [List.count_append, List.count_cons] at counted ⊢
      omega
    exact (parts.trans whole).cons_inv
  · intro request member notPosted
    rcases (erased request).mp member with ⟨different, old⟩
    have before :=
      consistent.open_ request old fun there =>
        notPosted ((List.mem_erase_of_ne (headApart request member)).mpr
          there)
    dsimp only
    rw [frees.info, Function.update_of_ne (bufApart request member)]
    dsimp only
    rw [Function.update_of_ne (headApart request member)]
    exact before
  · intro request member stillPosted
    rcases (erased request).mp member with ⟨different, old⟩
    dsimp only
    rw [Function.update_of_ne (bufApart request member)]
    exact consistent.done request old (List.mem_of_mem_erase stillPosted)
  · intro other op
    dsimp only
    by_cases same : other = buf
    · rw [same, Function.update_self]
      intro none
      cases none
    · rw [Function.update_of_ne same, Function.update_of_ne same]
      exact consistent.entered other op

end Consistent

/-! ## Runs -/

/-- There are chains and places for all descriptors and heads. -/
def Orderly (system : System) : Prop :=
  ∃ free requests offered returned posted fetched handled,
    Consistent system free requests offered returned posted fetched handled

theorem orderly_initial : Orderly initial := by
  refine ⟨List.range nqueue, [], [], [], [], 0, 0, ?_, rfl, ?_, ?_, ?_, ?_,
    ?_, ?_, ?_, ?_, ?_⟩
  · refine Linked.next (by decide) (Linked.next (by decide)
      (Linked.next (by decide) (Linked.next (by decide)
        (Linked.next (by decide) (Linked.next (by decide)
          (Linked.next (by decide) (Linked.last (by decide))))))))
  · intro request
    constructor
    · intro member
      cases member
    · intro waits
      cases waits
  · exact List.Perm.refl _
  · intro request member
    cases member
  · exact Contains.empty
  · exact Contains.empty
  · exact List.Perm.refl _
  · intro request member
    cases member
  · intro request member
    cases member
  · intro buf op entering
    cases entering

theorem Orderly.step
    {system target : System}
    (orderly : Orderly system)
    {label : Label}
    (allowed : Allowed system label)
    (taken : Takes step system label target) :
    Orderly target := by
  rcases orderly with
    ⟨free, requests, offered, returned, posted, fetched, handled,
      consistent⟩
  cases label with
  | enter buf flags =>
      exact ⟨_, _, _, _, _, _, _, consistent.enter allowed taken⟩
  | submit buf =>
      rcases consistent.submit taken with ⟨chain, rest, _, next⟩
      exact ⟨_, _, _, _, _, _, _, next⟩
  | fetch =>
      rcases consistent.fetch taken with ⟨head, rest, _, next⟩
      exact ⟨_, _, _, _, _, _, _, next⟩
  | complete head status =>
      exact ⟨_, _, _, _, _, _, _, consistent.complete taken⟩
  | intr =>
      rcases consistent.virtioBlkIntr with
        stopped | ⟨finish, returns, next, _⟩
      · rw [Takes, VirtioBlk.step, stopped] at taken
        cases taken
      · rw [Takes, VirtioBlk.step, returns] at taken
        cases taken
        exact ⟨_, _, _, _, _, _, _, next⟩
  | conclude buf =>
      simp only [Takes, VirtioBlk.step] at taken
      split at taken
      · rename_i chain waits
        split_ifs at taken with positive
        rcases consistent.conclude waits positive with
          ⟨virtq, returns, next⟩
        rw [returns] at taken
        cases taken
        exact ⟨_, _, _, _, _, _, _, next⟩
      · cases taken

theorem orderly_run
    {labels : List Label}
    {finish : System}
    (run : Run (Takes step) Allowed initial labels finish) :
    Orderly finish := by
  refine run.invariant orderly_initial ?_
  intro source label target orderly allowed taken
  exact orderly.step allowed taken

/-- The call with a `Buf` has submitted the request with a head. -/
def Owns (system : System) (buf head : Nat) : Prop :=
  ∃ chain, system.calls buf = some (.waiting chain) ∧ chain.d0 = head

/-- The heads which were returned and not handled. -/
def returnedHeads (virtq : Virtq) : List Nat :=
  (List.range
    ((virtq.used.idx + u16Modulus - virtq.lastUsedIdx) % u16Modulus)).map
      fun index => virtq.used.ring ((virtq.lastUsedIdx + index) % nqueue)

/-- Every descriptor is free or belongs to one request in flight. -/
structure Managed (system : System) (free : List Nat) : Prop where
  linked : Linked system.virtq.desc system.virtq.freeHead free
  nfree : system.virtq.nfree = free.length
  distinct : free.Nodup
  chains :
    ∀ buf chain, system.calls buf = some (.waiting chain) →
      Linked system.virtq.desc chain.d0 [chain.d0, chain.d1, chain.d2] ∧
        [chain.d0, chain.d1, chain.d2].Nodup ∧
          free.Disjoint [chain.d0, chain.d1, chain.d2]
  apart :
    ∀ buf other chain otherChain, buf ≠ other →
      system.calls buf = some (.waiting chain) →
        system.calls other = some (.waiting otherChain) →
          [chain.d0, chain.d1, chain.d2].Disjoint
            [otherChain.d0, otherChain.d1, otherChain.d2]
  all :
    ∀ index,
      index < nqueue ↔
        index ∈ free ∨
          ∃ buf chain, system.calls buf = some (.waiting chain) ∧
            index ∈ [chain.d0, chain.d1, chain.d2]

/-- What `virtio_blk_intr` does to the semaphores. -/
structure PostsOwners (system : System) : Prop where
  once : (returnedHeads system.virtq).Nodup
  owned :
    ∀ head ∈ returnedHeads system.virtq, ∃ buf, Owns system buf head
  posts :
    ∀ target, step system .intr = .ok target →
      ∀ head ∈ returnedHeads system.virtq, ∀ buf, Owns system buf head →
        target.sem buf = system.sem buf + 1
  others :
    ∀ target, step system .intr = .ok target →
      ∀ buf, (∀ head ∈ returnedHeads system.virtq, ¬ Owns system buf head) →
        target.sem buf = system.sem buf

section Results

variable
    {system : System}
    {free offered returned posted : List Nat}
    {requests : List Request}
    {fetched handled : Nat}

theorem Consistent.managed
    (consistent :
      Consistent system free requests offered returned posted fetched
        handled) :
    Managed system free := by
  refine ⟨consistent.linked, consistent.nfree,
    (List.nodup_append.mp consistent.nodup).1, ?_, ?_, ?_⟩
  · intro buf chain waits
    have inside := (consistent.calls ⟨buf, chain⟩).mpr waits
    refine ⟨consistent.chains _ inside, consistent.distinct inside, ?_⟩
    intro index isFree isDesc
    exact consistent.not_free inside isDesc isFree
  · intro buf other chain otherChain different waits otherWaits
    have inside := (consistent.calls ⟨buf, chain⟩).mpr waits
    have otherInside :=
      (consistent.calls ⟨other, otherChain⟩).mpr otherWaits
    refine consistent.disjoint inside otherInside ?_
    intro same
    exact different (congrArg Request.buf same)
  · intro index
    rw [← List.mem_range, ← consistent.all.mem_iff, List.mem_append,
      List.mem_flatMap]
    refine or_congr_right ?_
    constructor
    · rintro ⟨request, inside, isDesc⟩
      exact ⟨request.buf, request.chain,
        (consistent.calls request).mp inside, isDesc⟩
    · rintro ⟨buf, chain, waits, isDesc⟩
      exact ⟨⟨buf, chain⟩, (consistent.calls ⟨buf, chain⟩).mpr waits, isDesc⟩

theorem Consistent.returnedHeads_eq
    (consistent :
      Consistent system free requests offered returned posted fetched
        handled) :
    returnedHeads system.virtq = returned := by
  unfold returnedHeads
  rw [consistent.used.distance (by decide)]
  apply List.ext_get
  · rw [List.length_map, List.length_range]
  · intro index _ inside
    have cell :
        (system.virtq.lastUsedIdx + index) % nqueue =
          (handled + index) % nqueue := by
      rw [consistent.used.read, Nat.add_mod, mod_mod_size (by decide),
        ← Nat.add_mod]
    rw [List.get_eq_getElem, List.getElem_map, List.getElem_range,
      ← consistent.used.stored index inside, ← cell]

theorem Consistent.owns_iff
    (consistent :
      Consistent system free requests offered returned posted fetched
        handled)
    (buf head : Nat) :
    Owns system buf head ↔
      ∃ request ∈ requests, request.buf = buf ∧ request.head = head := by
  constructor
  · rintro ⟨chain, waits, rfl⟩
    exact ⟨⟨buf, chain⟩, (consistent.calls ⟨buf, chain⟩).mpr waits, rfl, rfl⟩
  · rintro ⟨request, inside, rfl, rfl⟩
    exact ⟨request.chain, (consistent.calls request).mp inside, rfl⟩

theorem Consistent.postsOwners
    (consistent :
      Consistent system free requests offered returned posted fetched
        handled) :
    PostsOwners system := by
  have heads := consistent.returnedHeads_eq
  have distinct :=
    (List.nodup_append.mp
      (List.nodup_append.mp consistent.heads_nodup).2.1).2.1
  have result :
      ∀ target, step system .intr = .ok target →
        Handled system target free requests offered returned posted fetched
          handled := by
    intro target taken
    rcases consistent.virtioBlkIntr with stopped | ⟨finish, returns, next⟩
    · rw [step, stopped] at taken
      cases taken
    · rw [step, returns] at taken
      cases taken
      exact next
  constructor
  · rw [heads]
    exact (List.nodup_append.mp distinct).1
  · rw [heads]
    intro head member
    have somewhere :
        head ∈ offered ++ (system.pending ++ (returned ++ posted)) :=
      List.mem_append_right _
        (List.mem_append_right _ (List.mem_append_left _ member))
    rcases consistent.exists_request somewhere with ⟨request, inside, same⟩
    exact ⟨request.buf,
      (consistent.owns_iff request.buf head).mpr
        ⟨request, inside, rfl, same⟩⟩
  · rw [heads]
    intro target taken head member buf owns
    rcases (consistent.owns_iff buf head).mp owns with
      ⟨request, inside, rfl, rfl⟩
    have notPosted : request.head ∉ posted := by
      intro isPosted
      exact (List.nodup_append.mp distinct).2.2 _ member _ isPosted rfl
    rw [(consistent.open_ request inside notPosted).2]
    refine (result target taken).1.done request inside ?_
    exact List.mem_append_left _ (List.mem_reverse.mpr member)
  · rw [heads]
    intro target taken buf unowned
    rcases result target taken with ⟨next, calls, unposted⟩
    by_cases has : ∃ request ∈ requests, request.buf = buf
    · rcases has with ⟨request, inside, rfl⟩
      have notReturned : request.head ∉ returned := by
        intro member
        exact unowned request.head member
          ((consistent.owns_iff _ _).mpr ⟨request, inside, rfl, rfl⟩)
      by_cases isPosted : request.head ∈ posted
      · rw [consistent.done request inside isPosted]
        exact next.done request inside (List.mem_append_right _ isPosted)
      · rw [(consistent.open_ request inside isPosted).2]
        refine (next.open_ request inside ?_).2
        rw [List.mem_append, List.mem_reverse, not_or]
        exact ⟨notReturned, isPosted⟩
    · refine unposted buf ?_
      intro request inside same
      exact has ⟨request, inside, same⟩

/-- Only these reasons stop a section. -/
theorem Consistent.stops
    (consistent :
      Consistent system free requests offered returned posted fetched
        handled)
    {label : Label}
    {stop : Stop}
    (stopped : step system label = .error stop) :
    (stop = .noDescriptor ∧
      ∃ buf op, label = .submit buf ∧
        system.calls buf = some (.entered op) ∧ 2 ≤ requests.length) ∨
      stop = .badStatus ∨ stop = .disabled := by
  cases label with
  | enter buf flags => cases stopped
  | submit buf =>
      simp only [step] at stopped
      split at stopped
      · rename_i op entering
        rcases consistent.submit_cases buf op with
          ⟨many, failed⟩ | ⟨_, chain, rest, virtq, _, returns, _⟩
        · rw [failed] at stopped
          cases stopped
          exact Or.inl ⟨rfl, buf, op, rfl, entering, many⟩
        · rw [returns] at stopped
          cases stopped
      · cases stopped
        exact Or.inr (Or.inr rfl)
  | fetch =>
      simp only [step] at stopped
      split_ifs at stopped
      cases stopped
      exact Or.inr (Or.inr rfl)
  | complete head status =>
      simp only [step] at stopped
      split_ifs at stopped
      cases stopped
      exact Or.inr (Or.inr rfl)
  | intr =>
      rcases consistent.virtioBlkIntr with failed | ⟨finish, returns, _⟩
      · rw [step, failed] at stopped
        cases stopped
        exact Or.inr (Or.inl rfl)
      · rw [step, returns] at stopped
        cases stopped
  | conclude buf =>
      simp only [step] at stopped
      split at stopped
      · rename_i chain waits
        split_ifs at stopped with positive
        · rcases consistent.conclude waits positive with
            ⟨virtq, returns, _⟩
          rw [returns] at stopped
          cases stopped
        · cases stopped
          exact Or.inr (Or.inr rfl)
      · cases stopped
        exact Or.inr (Or.inr rfl)

end Results

/--
In every run the free descriptors and those of the requests in flight are
chains apart which hold every descriptor, and the interrupt handler posts the
semaphores of the owners of the returned heads.
-/
theorem descriptors_managed
    {labels : List Label}
    {finish : System}
    (run : Run (Takes step) Allowed initial labels finish) :
    (∃ free, Managed finish free) ∧ PostsOwners finish ∧
      ∀ label stop, step finish label = .error stop →
        stop = .noDescriptor ∨ stop = .badStatus ∨ stop = .disabled := by
  rcases orderly_run run with
    ⟨free, requests, offered, returned, posted, fetched, handled,
      consistent⟩
  refine ⟨⟨free, consistent.managed⟩, consistent.postsOwners, ?_⟩
  intro label stop stopped
  exact (consistent.stops stopped).imp_left And.left

instance (system : System) (label : Label) :
    Decidable (Allowed system label) :=
  match label with
  | .enter _ _ => inferInstanceAs (Decidable (_ = _))
  | .submit _ => inferInstanceAs (Decidable True)
  | .fetch => inferInstanceAs (Decidable True)
  | .complete _ _ => inferInstanceAs (Decidable True)
  | .intr => inferInstanceAs (Decidable True)
  | .conclude _ => inferInstanceAs (Decidable True)

/-- A read and a write, which are completed in the other order. -/
def twoRequests : List Label :=
  [.enter 1 0, .enter 2 4, .submit 1, .submit 2, .fetch, .fetch,
    .complete 3 0, .intr, .conclude 2, .complete 0 0]

theorem descriptors_managed_two_requests :
    ∃ finish,
      Run (Takes step) Allowed initial twoRequests finish ∧
        finish.virtq.nfree = 5 ∧ finish.virtq.freeHead = 3 ∧
          ∃ free, Managed finish free := by
  have computed :
      ((executeChecked step (fun system label => decide (Allowed system label))
        initial twoRequests).map fun finish =>
          (finish.virtq.nfree, finish.virtq.freeHead)) = some (5, 3) := by
    decide +kernel
  rcases Option.map_eq_some_iff.mp computed with ⟨finish, executed, facts⟩
  have run : Run (Takes step) Allowed initial twoRequests finish :=
    Run.of_executeChecked (fun _ _ => of_decide_eq_true) executed
  exact ⟨finish, run, congrArg Prod.fst facts, congrArg Prod.snd facts,
    (descriptors_managed run).1⟩

/-! ## Running out of descriptors -/

/-- The call with a `Buf` has a request in flight. -/
def InFlight (system : System) (buf : Nat) : Prop :=
  ∃ chain, system.calls buf = some (.waiting chain)

/-- At most one request is in flight when another is submitted. -/
def Fits (system : System) : Label → Prop
  | .submit _ =>
      ∀ buf other, InFlight system buf → InFlight system other → buf = other
  | _ => True

theorem Consistent.fits_iff
    {system : System}
    {free offered returned posted : List Nat}
    {requests : List Request}
    {fetched handled : Nat}
    (consistent :
      Consistent system free requests offered returned posted fetched
        handled)
    (buf : Nat) :
    Fits system (.submit buf) ↔ requests.length < 2 := by
  have inFlight :
      ∀ request ∈ requests, InFlight system request.buf := by
    intro request inside
    exact ⟨request.chain, (consistent.calls request).mp inside⟩
  have member :
      ∀ buf, InFlight system buf →
        ∃ request ∈ requests, request.buf = buf := by
    rintro buf ⟨chain, waits⟩
    exact ⟨⟨buf, chain⟩, (consistent.calls ⟨buf, chain⟩).mpr waits, rfl⟩
  have distinct := consistent.requests_nodup
  constructor
  · intro fits
    match requests, distinct, inFlight with
    | [], _, _ => decide
    | [_], _, _ => exact Nat.lt_succ_self 1
    | first :: second :: rest, distinct, inFlight =>
        have same :=
          fits first.buf second.buf
            (inFlight first List.mem_cons_self)
            (inFlight second
              (List.mem_cons_of_mem _ List.mem_cons_self))
        have equal :=
          consistent.eq_of_buf List.mem_cons_self
            (List.mem_cons_of_mem _ List.mem_cons_self) same
        rw [equal] at distinct
        exact absurd List.mem_cons_self (List.nodup_cons.mp distinct).1
  · intro few left right leftWaits rightWaits
    rcases member left leftWaits with ⟨first, firstInside, rfl⟩
    rcases member right rightWaits with ⟨second, secondInside, rfl⟩
    match requests, few, firstInside, secondInside with
    | [request], _, firstInside, secondInside =>
        rw [List.mem_singleton.mp firstInside,
          List.mem_singleton.mp secondInside]

/--
In every state which a run reaches, a section calls `alloc_desc` without a
free descriptor exactly when it submits a request while two others are in
flight.
-/
theorem no_descriptor_iff
    {labels : List Label}
    {finish : System}
    (run : Run (Takes step) Allowed initial labels finish)
    (label : Label) :
    step finish label = .error .noDescriptor ↔
      (∃ buf op, label = .submit buf ∧
        finish.calls buf = some (.entered op)) ∧
        ¬ Fits finish label := by
  rcases orderly_run run with
    ⟨free, requests, offered, returned, posted, fetched, handled,
      consistent⟩
  constructor
  · intro stopped
    rcases consistent.stops stopped with
      ⟨_, buf, op, rfl, entering, many⟩ | bad | disabled
    · refine ⟨⟨buf, op, rfl, entering⟩, ?_⟩
      rw [consistent.fits_iff]
      exact Nat.not_lt.mpr many
    · cases bad
    · cases disabled
  · rintro ⟨⟨buf, op, rfl, entering⟩, unfit⟩
    rw [consistent.fits_iff] at unfit
    rcases consistent.submit_cases buf op with ⟨_, failed⟩ | ⟨few, _⟩
    · simp only [step, entering, failed]
      rfl
    · exact absurd few unfit

/-- Two requests are in flight and a third call has entered. -/
def threeCalls : List Label :=
  [.enter 1 0, .enter 2 0, .enter 3 0, .submit 1, .submit 2]

theorem no_descriptor_iff_three_calls :
    ∃ finish,
      Run (Takes step) Allowed initial threeCalls finish ∧
        (step finish (.submit 3) = .error .noDescriptor ↔
          (∃ buf op, Label.submit 3 = .submit buf ∧
            finish.calls buf = some (.entered op)) ∧
            ¬ Fits finish (.submit 3)) := by
  have computed :
      ((executeChecked step (fun system label => decide (Allowed system label))
        initial threeCalls).map fun finish => finish.virtq.nfree) =
          some 2 := by
    decide +kernel
  rcases Option.map_eq_some_iff.mp computed with ⟨finish, executed, _⟩
  have run : Run (Takes step) Allowed initial threeCalls finish :=
    Run.of_executeChecked (fun _ _ => of_decide_eq_true) executed
  exact ⟨finish, run, no_descriptor_iff run (.submit 3)⟩

/-- The third of three concurrent reads panics. -/
theorem third_request_panics :
    ¬ ∀ labels finish,
        Run (Takes step) Allowed initial labels finish →
          ∀ label, step finish label ≠ .error .noDescriptor := by
  intro claimed
  have computed :
      ((executeChecked step (fun system label => decide (Allowed system label))
        initial threeCalls).map fun finish =>
          match step finish (.submit 3) with
          | .error stop => decide (stop = .noDescriptor)
          | .ok _ => false) = some true := by
    decide +kernel
  rcases Option.map_eq_some_iff.mp computed with ⟨finish, executed, fails⟩
  have run : Run (Takes step) Allowed initial threeCalls finish :=
    Run.of_executeChecked (fun _ _ => of_decide_eq_true) executed
  refine claimed threeCalls finish run (.submit 3) ?_
  cases taken : step finish (.submit 3) with
  | error stop =>
      rw [taken] at fails
      rw [of_decide_eq_true fails]
  | ok target =>
      rw [taken] at fails
      cases fails

end FudanOS.Driver.VirtioRuns
