import FudanOS.Library.Programs
import FudanOS.Library.Runs
import Mathlib.Logic.Function.Basic

/-!
# The virtio block driver

`virtio_blk.c`: the queue of descriptors, the section of `virtio_blk_rw` which
hands a request to the device, the section which frees its descriptors, and
the interrupt handler.  The descriptors, the two rings and `info` are arrays
of `NQUEUE` elements.  Numbers of type `u16` are natural numbers which count
modulo `2 ^ 16`.

A `Buf` is named by its address, and an address which the device is given by
what lies there.  The header of a request, its sector and the bytes which are
read and written are left out: no descriptor depends on them.
-/

namespace FudanOS.Driver.VirtioBlk

open FudanOS.Library.Programs
open FudanOS.Library.Runs

/-- `NQUEUE` -/
abbrev nqueue : Nat := 8

/-- The numbers of type `u16`. -/
abbrev u16Modulus : Nat := 2 ^ 16

/-- `VIRTQ_DESC_F_NEXT` -/
abbrev virtqDescFNext : UInt16 := 1

/-- `VIRTQ_DESC_F_WRITE` -/
abbrev virtqDescFWrite : UInt16 := 2

/-- `B_DIRTY` -/
abbrev bDirty : UInt32 := 4

/-- Why a section does not end. -/
inductive Stop where
  /-- `alloc_desc` was called without a free descriptor. -/
  | noDescriptor
  /-- The device returned a request with a status which is not 0. -/
  | badStatus
  /-- The semaphore of a `Buf` at `NULL` is posted. -/
  | noBuf
  /-- A loop has not come to its end. -/
  | unfinished
  /-- The step is not one of the system in this state. -/
  | disabled
  deriving DecidableEq

/-- `enum diskop` -/
inductive Diskop where
  | dread
  | dwrite
  deriving DecidableEq

/-- What lies at an address. -/
inductive Address where
  | null
  /-- The local variable `hdr` of the call with a `Buf`. -/
  | hdr (buf : Nat)
  /-- `b->data` -/
  | data (buf : Nat)
  /-- `info[d0].status` -/
  | status (d0 : Nat)
  deriving DecidableEq

/-- `struct virtq_desc` -/
structure Desc where
  addr : Address
  len : Nat
  flags : UInt16
  next : Nat
  deriving DecidableEq

/-- An element of `info`; `buf` is the `Buf` whose data is pointed at. -/
structure Info where
  status : UInt8
  done : UInt8
  buf : Option Nat
  deriving DecidableEq

/-- `struct virtq_avail`, and `struct virtq_used` with the `id`s. -/
structure Ring where
  idx : Nat
  ring : Nat → Nat

/-- `struct virtq` -/
structure Virtq where
  desc : Nat → Desc
  avail : Ring
  used : Ring
  freeHead : Nat
  nfree : Nat
  lastUsedIdx : Nat
  info : Nat → Info

/-- `flags & VIRTQ_DESC_F_NEXT` -/
def Desc.HasNext (desc : Desc) : Prop :=
  desc.flags &&& virtqDescFNext ≠ 0

instance (desc : Desc) : Decidable desc.HasNext :=
  inferInstanceAs (Decidable (_ ≠ _))

def Virtq.setDesc (virtq : Virtq) (index : Nat) (desc : Desc) : Virtq :=
  { virtq with desc := Function.update virtq.desc index desc }

/-! ## Descriptors -/

/-- `desc_init(virtq)` -/
def descInit (virtq : Virtq) : Virtq :=
  (List.range nqueue).foldl
    (fun virtq i =>
      if i ≠ nqueue - 1 then
        virtq.setDesc i
          { virtq.desc i with flags := virtqDescFNext, next := i + 1 }
      else
        virtq)
    virtq

/-- `virtq_init(vq)` -/
def virtqInit : Virtq :=
  descInit
    { desc := fun _ => ⟨.null, 0, 0, 0⟩
      avail := ⟨0, fun _ => 0⟩
      used := ⟨0, fun _ => 0⟩
      freeHead := 0
      nfree := nqueue
      lastUsedIdx := 0
      info := fun _ => ⟨0, 0, none⟩ }

/-- `alloc_desc(virtq)` -/
def allocDesc (virtq : Virtq) : Except Stop (Nat × Virtq) :=
  if virtq.nfree = 0 then
    .error .noDescriptor
  else
    let d := virtq.freeHead
    let virtq :=
      if (virtq.desc d).HasNext then
        { virtq with freeHead := (virtq.desc d).next }
      else
        virtq
    .ok (d, { virtq with nfree := virtq.nfree - 1 })

/-- The loop of `free_desc`. -/
def freeLoop : Nat → Virtq → Nat → Except Stop (Nat × Virtq)
  | 0, _, _ => .error .unfinished
  | fuel + 1, virtq, n =>
      let virtq := { virtq with nfree := (virtq.nfree + 1) % u16Modulus }
      if (virtq.desc n).HasNext then
        freeLoop fuel virtq (virtq.desc n).next
      else
        .ok (n, virtq)

/-- `free_desc(virtq, n)` -/
def freeDesc (virtq : Virtq) (head : Nat) : Except Stop Virtq := do
  let empty := decide (virtq.nfree = 0)
  let (n, virtq) ← freeLoop u16Modulus virtq head
  let virtq := virtq.setDesc n { virtq.desc n with flags := virtqDescFNext }
  let virtq :=
    if !empty then
      virtq.setDesc n { virtq.desc n with next := virtq.freeHead }
    else
      virtq
  return { virtq with freeHead := head }

/-! ## Requests -/

/-- The local variables of `virtio_blk_rw` which name descriptors. -/
structure Chain where
  d0 : Nat
  d1 : Nat
  d2 : Nat
  deriving DecidableEq

/-- The op of `virtio_blk_rw`. -/
def diskop (flags : UInt32) : Diskop :=
  if flags &&& bDirty ≠ 0 then .dwrite else .dread

/-- The descriptor of the header is filled. -/
def fillHeader (desc : Nat → Desc) (buf d0 : Nat) : Nat → Desc :=
  Function.update desc d0
    { desc d0 with addr := .hdr buf, len := 16, flags := virtqDescFNext }

/-- The flags of the descriptor of the data. -/
def dataFlags (op : Diskop) : UInt16 :=
  if op = .dread then virtqDescFNext ||| virtqDescFWrite else virtqDescFNext

/-- The descriptor of the data is filled and put behind the first. -/
def fillData (desc : Nat → Desc) (buf : Nat) (op : Diskop) (d0 d1 : Nat) :
    Nat → Desc :=
  let desc := Function.update desc d0 { desc d0 with next := d1 }
  Function.update desc d1
    { desc d1 with addr := .data buf, len := 512, flags := dataFlags op }

/-- The descriptor of the status is filled and put behind the second. -/
def fillStatus (desc : Nat → Desc) (d0 d1 d2 : Nat) : Nat → Desc :=
  let desc := Function.update desc d1 { desc d1 with next := d2 }
  Function.update desc d2
    { addr := .status d0, len := 1, flags := virtqDescFWrite, next := 0 }

/-- The head of a request is put into `avail`. -/
def offer (virtq : Virtq) (buf d0 : Nat) : Virtq :=
  { virtq with
    avail :=
      { idx := (virtq.avail.idx + 1) % u16Modulus
        ring :=
          Function.update virtq.avail.ring (virtq.avail.idx % nqueue) d0 }
    info :=
      Function.update virtq.info d0 { virtq.info d0 with buf := some buf } }

/-- `virtio_blk_rw(b)`, from `acquire_spinlock` to `release_spinlock`. -/
def submit (virtq : Virtq) (buf : Nat) (op : Diskop) :
    Except Stop (Chain × Virtq) := do
  let (d0, virtq) ← allocDesc virtq
  let virtq := { virtq with desc := fillHeader virtq.desc buf d0 }
  let (d1, virtq) ← allocDesc virtq
  let virtq := { virtq with desc := fillData virtq.desc buf op d0 d1 }
  let (d2, virtq) ← allocDesc virtq
  let virtq := { virtq with desc := fillStatus virtq.desc d0 d1 d2 }
  return (⟨d0, d1, d2⟩, offer virtq buf d0)

/-- `virtio_blk_rw(b)`, from the second `acquire_spinlock` on. -/
def conclude (virtq : Virtq) (d0 : Nat) : Except Stop Virtq :=
  freeDesc
    { virtq with
      info := Function.update virtq.info d0 { virtq.info d0 with done := 0 } }
    d0

/-! ## The system -/

/-- Where a call of `virtio_blk_rw` is. -/
inductive Phase where
  /-- The semaphore is initialised. -/
  | entered (op : Diskop)
  /-- The request was submitted, and the call waits for its semaphore. -/
  | waiting (chain : Chain)
  deriving DecidableEq

/-- The queue, the device and the calls. -/
structure System where
  virtq : Virtq
  /-- How many requests the device has read from `avail`. -/
  lastAvailIdx : Nat
  /-- The heads which the device has read and not returned. -/
  pending : List Nat
  /-- The calls of `virtio_blk_rw`, by their `Buf`. -/
  calls : Nat → Option Phase
  /-- The values of the semaphores. -/
  sem : Nat → Nat

/-- The driver after `virtio_init`. -/
def initial : System where
  virtq := virtqInit
  lastAvailIdx := 0
  pending := []
  calls := fun _ => none
  sem := fun _ => 0

/-- A round of `virtio_blk_intr`: the semaphore of the `Buf` is posted. -/
def handle (system : System) (d0 buf : Nat) : System :=
  let virtq := system.virtq
  { system with
    sem := Function.update system.sem buf (system.sem buf + 1)
    virtq :=
      { virtq with
        info :=
          Function.update virtq.info d0 { virtq.info d0 with buf := none }
        lastUsedIdx := (virtq.lastUsedIdx + 1) % u16Modulus } }

/-- The loop of `virtio_blk_intr`. -/
def intrLoop : Nat → System → Except Stop System
  | 0, _ => .error .unfinished
  | fuel + 1, system =>
      let virtq := system.virtq
      if virtq.lastUsedIdx ≠ virtq.used.idx then
        let d0 := virtq.used.ring (virtq.lastUsedIdx % nqueue)
        if (virtq.info d0).status ≠ 0 then
          .error .badStatus
        else
          match (virtq.info d0).buf with
          | none => .error .noBuf
          | some buf => intrLoop fuel (handle system d0 buf)
      else
        .ok system

/-- `virtio_blk_intr()` -/
def virtioBlkIntr (system : System) : Except Stop System :=
  intrLoop u16Modulus system

/-- The device stores the status of a request where its last descriptor says. -/
def storeStatus (virtq : Virtq) (head : Nat) (status : UInt8) : Virtq :=
  let d1 := (virtq.desc head).next
  let d2 := (virtq.desc d1).next
  match (virtq.desc d2).addr with
  | .status d0 =>
      { virtq with
        info :=
          Function.update virtq.info d0
            { virtq.info d0 with status := status } }
  | _ => virtq

inductive Label where
  /-- `virtio_blk_rw` is called with a `Buf` which has these flags. -/
  | enter (buf : Nat) (flags : UInt32)
  | submit (buf : Nat)
  /-- The device reads the next head of `avail`. -/
  | fetch
  /-- The device returns a head. -/
  | complete (head : Nat) (status : UInt8)
  | intr
  /-- A call which `wait_sem` has let go on frees its descriptors. -/
  | conclude (buf : Nat)
  deriving DecidableEq

def step (system : System) : Label → Except Stop System
  | .enter buf flags =>
      .ok
        { system with
          calls :=
            Function.update system.calls buf (some (.entered (diskop flags)))
          sem := Function.update system.sem buf 0 }
  | .submit buf =>
      match system.calls buf with
      | some (.entered op) => do
          let (chain, virtq) ← submit system.virtq buf op
          return { system with
            virtq := virtq
            calls :=
              Function.update system.calls buf (some (.waiting chain)) }
      | _ => .error .disabled
  | .fetch =>
      let avail := system.virtq.avail
      if system.lastAvailIdx ≠ avail.idx then
        .ok
          { system with
            lastAvailIdx := (system.lastAvailIdx + 1) % u16Modulus
            pending :=
              avail.ring (system.lastAvailIdx % nqueue) :: system.pending }
      else
        .error .disabled
  | .complete head status =>
      if head ∈ system.pending then
        let virtq := storeStatus system.virtq head status
        let used : Ring :=
          { idx := (virtq.used.idx + 1) % u16Modulus
            ring :=
              Function.update virtq.used.ring (virtq.used.idx % nqueue)
                head }
        .ok
          { system with
            virtq := { virtq with used := used }
            pending := system.pending.erase head }
      else
        .error .disabled
  | .intr => virtioBlkIntr system
  | .conclude buf =>
      match system.calls buf with
      | some (.waiting chain) =>
          if 0 < system.sem buf then do
            let virtq ← conclude system.virtq chain.d0
            return { system with
              virtq := virtq
              calls := Function.update system.calls buf none
              sem := Function.update system.sem buf (system.sem buf - 1) }
          else
            .error .disabled
      | _ => .error .disabled

/-- A `Buf` is used by one call at a time. -/
def Allowed (system : System) : Label → Prop
  | .enter buf _ => system.calls buf = none
  | _ => True

end FudanOS.Driver.VirtioBlk
