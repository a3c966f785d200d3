import FudanOS.Fs.Directory
import FudanOS.Library.Runs

/-!
# The table of inodes in memory

`inode_get`, `inode_share` and `inode_put` of `fs/inode.c`, and runs of calls
of the inode layer, one at a time.  The inode lock is free between two calls,
so waiting for it is left out.  `kalloc` returns an address which is not in
use; the memory there keeps the bytes which it had.
-/

namespace FudanOS.Fs.InodeTable

open FudanOS.Library.Programs
open FudanOS.Library.Runs
open FudanOS.Fs.Defines
open FudanOS.Fs.BlockBitmap
open FudanOS.Fs.InodeLayout
open FudanOS.Fs.InodeLayer
open FudanOS.Fs.BlockOwnership
open FudanOS.Fs.FileContents
open FudanOS.Fs.InodeSpecs
open FudanOS.Fs.FileSpecs
open FudanOS.Fs.Directory

/-- The blocks and the inodes in memory. -/
structure State where
  store : Store
  nodes : Nat → Inode
  /-- The addresses of the inodes on the list `head`. -/
  head : List Nat

/-- A call of the inode layer, with what the caller chooses. -/
inductive Call where
  /-- The next calls belong to another operation. -/
  | beginOp (logged : List Nat) (rm : Nat)
  | alloc (type : UInt16)
  | get (inodeNo fresh : Nat)
  | share (address : Nat)
  | write (address : Nat) (src : List UInt8) (offset : Nat)
  | insert (address : Nat) (frame : Frame) (name : List UInt8)
      (inodeNo : Nat)
  | remove (address : Nat) (frame : Frame) (index : Nat)
  | clear (address : Nat)
  | put (address : Nat)
  /-- `num_links` is changed and the inode synced. -/
  | setLinks (address : Nat) (numLinks : UInt16)

/-- The disk which the inode layer sees. -/
def State.view (sblock : SuperBlock) (state : State) : View :=
  InodeLayout.view sblock state.store.blocks

section Functions

variable
    (sblock : SuperBlock)
    (console : ConsoleRead)

/-- A function of the inode layer works on the inode at an address. -/
def onInode (address : Nat) (program : Inode → Program Store Stop Inode)
    (state : State) : Except Stop State :=
  match (program (state.nodes address)).run state.store with
  | .ok (inode, store) =>
      .ok { state with
        store := store
        nodes := Function.update state.nodes address inode }
  | .error stop => .error stop

/-- `inode_get(inode_no)` when `kalloc` would return `fresh`. -/
def inodeGet (inodeNo fresh : Nat) (state : State) :
    Except Stop (Nat × State) :=
  if inodeNo = 0 ∨ sblock.numInodes.toNat ≤ inodeNo then
    .error .assertion
  else
    match
      state.head.find? fun address =>
        (state.nodes address).inodeNo == inodeNo
    with
    | some address =>
        let inode := state.nodes address
        .ok (address,
          { state with
            nodes :=
              Function.update state.nodes address
                { inode with rc := inode.rc + 1 } })
    | none =>
        let inode :=
          { rc := 1
            inodeNo := inodeNo
            valid := false
            entry := (state.nodes fresh).entry }
        match (inodeSync sblock inode false).run state.store with
        | .ok (inode, store) =>
            .ok (fresh,
              { store := store
                nodes := Function.update state.nodes fresh inode
                head := fresh :: state.head })
        | .error stop => .error stop

/-- `inode_share(inode)` -/
def inodeShare (address : Nat) (state : State) : State :=
  let inode := state.nodes address
  { state with
    nodes :=
      Function.update state.nodes address
        { inode with rc := inode.rc + 1 } }

/-- The part of `inode_put` for an inode which nobody needs. -/
def freeInode (inode : Inode) : Program Store Stop Inode := do
  let inode ←
    inodeClear sblock
      { inode with entry := { inode.entry with type := inodeInvalid } }
  inodeSync sblock inode true

/-- `inode_put(ctx, inode)` -/
def inodePut (address : Nat) (state : State) : Except Stop State :=
  let inode :=
    { state.nodes address with rc := (state.nodes address).rc - 1 }
  let state :=
    { state with nodes := Function.update state.nodes address inode }
  if inode.rc = 0 ∧ inode.entry.numLinks = 0 then
    match onInode address (freeInode sblock) state with
    | .ok state => .ok { state with head := state.head.erase address }
    | .error stop => .error stop
  else
    .ok state

/-- A change of `inode->entry.num_links`, and `inode_sync`. -/
def setLinks (numLinks : UInt16) (inode : Inode) :
    Program Store Stop Inode :=
  inodeSync sblock
    { inode with entry := { inode.entry with numLinks := numLinks } } true

/-- One call. -/
def step (state : State) : Call → Except Stop State
  | .beginOp logged rm =>
      .ok { state with store := { state.store with logged := logged, rm := rm } }
  | .alloc type =>
      match (inodeAlloc sblock type).run state.store with
      | .ok (_, store) => .ok { state with store := store }
      | .error stop => .error stop
  | .get inodeNo fresh =>
      match inodeGet sblock inodeNo fresh state with
      | .ok (_, state) => .ok state
      | .error stop => .error stop
  | .share address => .ok (inodeShare address state)
  | .write address src offset =>
      onInode address
        (fun inode => Prod.fst <$> inodeWrite sblock inode src offset) state
  | .insert address frame name inodeNo =>
      onInode address
        (fun inode =>
          Prod.fst <$>
            inodeInsert sblock console frame inode name inodeNo)
        state
  | .remove address frame index =>
      onInode address
        (fun inode => inodeRemove sblock console frame inode index) state
  | .clear address => onInode address (inodeClear sblock) state
  | .put address => inodePut sblock address state
  | .setLinks address numLinks =>
      onInode address (setLinks sblock numLinks) state

/--
What the callers promise: they get allocated inodes, and use the addresses
which they got.
-/
def Allowed (state : State) : Call → Prop
  | .beginOp _ _ => True
  | .alloc _ => True
  | .get inodeNo fresh =>
      Allocated sblock (state.view sblock) inodeNo ∧ fresh ∉ state.head
  | .share address => address ∈ state.head
  | .write address _ _ => address ∈ state.head
  | .insert address _ _ _ => address ∈ state.head
  | .remove address _ _ => address ∈ state.head
  | .clear address => address ∈ state.head
  | .put address => address ∈ state.head
  | .setLinks address _ => address ∈ state.head

end Functions

/-! ## Allocation of inodes -/

section Alloc

variable
    {sblock : SuperBlock}
    {store : Store}
    {accepts : Stop → Prop}

/-- A free inode gets the entry which `inode_alloc` writes. -/
structure AllocatesInode
    (sblock : SuperBlock)
    (store : Store)
    (type : UInt16)
    (inodeNo : Nat)
    (target : Store) : Prop where
  positive : 0 < inodeNo
  below : inodeNo < sblock.numInodes.toNat
  free : ((view sblock store.blocks).entry inodeNo).type = inodeInvalid
  becomes :
    Becomes sblock store target
      (withEntry (view sblock store.blocks) inodeNo
        { InodeEntry.zero with type := type })

theorem ensures_inodeAllocFrom
    (geometry : Geometry sblock)
    (calm : Calm sblock store)
    {type : UInt16}
    {numbers : List Nat}
    (inside :
      ∀ inodeNo ∈ numbers,
        0 < inodeNo ∧ inodeNo < sblock.numInodes.toNat) :
    Ensures Stop.Exhausted (inodeAllocFrom sblock type numbers) store
      (AllocatesInode sblock store type) := by
  induction numbers with
  | nil => exact Or.inr (Or.inr rfl)
  | cons inodeNo rest ih =>
      have bounds := inside inodeNo List.mem_cons_self
      unfold inodeAllocFrom
      rw [ensures_bind]
      refine ensures_acquire (inode_free geometry calm.quiet bounds.2) ?_
      refine ensures_ite ?_ ?_
      · intro free
        simp only [ensures_bind, ensures_edit]
        refine ensures_sync ?_
        intro logged rm
        rw [ensures_release, ensures_pure]
        refine ⟨bounds.1, bounds.2, ?_, by simp, ?_⟩
        · simpa [view, bounds.2] using free
        · exact view_setEntry geometry store.blocks bounds.2 _
      · intro taken
        rw [ensures_bind, ensures_release]
        simp only [List.erase_cons_head]
        exact ih fun other member =>
          inside other (List.mem_cons_of_mem _ member)

/-- `inode_alloc` -/
theorem ensures_inodeAlloc
    (geometry : Geometry sblock)
    (calm : Calm sblock store)
    (exhausted : ∀ stop : Stop, stop.Exhausted → accepts stop)
    {type : UInt16}
    (asserted : accepts .assertion ∨ type ≠ inodeInvalid) :
    Ensures accepts (inodeAlloc sblock type) store
      fun inodeNo target =>
        type ≠ inodeInvalid ∧
          AllocatesInode sblock store type inodeNo target := by
  unfold inodeAlloc
  rw [ensures_bind]
  refine ensures_assert_of (asserted.imp_right fun ne => by simpa) ?_
  intro valid
  refine Ensures.accepting ?_ exhausted
  refine Ensures.mono (ensures_inodeAllocFrom geometry calm ?_) ?_
  · intro inodeNo member
    rw [List.mem_range'_1] at member
    omega
  · intro inodeNo target allocates
    exact ⟨by simpa using valid, allocates⟩

end Alloc

end FudanOS.Fs.InodeTable
