import FudanOS.Fs.FileSpecs

/-!
# Directories

`inode_lookup`, `inode_insert` and `inode_remove` of `fs/inode.c`.  A
directory is a file of entries of 16 bytes, an inode number and a name.  The
functions read an entry into the local variable `curr`, which holds garbage
before the first read and what is left of an earlier entry after a short one.
`strlen(curr.name)` runs into the bytes of the stack after `curr` when the
name fills its array, so these are a parameter too.
-/

namespace FudanOS.Fs.Directory

open FudanOS.Library
open FudanOS.Library.Programs
open FudanOS.Fs.Defines
open FudanOS.Fs.BlockBitmap
open FudanOS.Fs.InodeLayout
open FudanOS.Fs.InodeLayer
open FudanOS.Fs.BlockOwnership
open FudanOS.Fs.FileContents
open FudanOS.Fs.InodeSpecs
open FudanOS.Fs.FileSpecs

/-- `FILE_NAME_MAX_LENGTH` -/
abbrev fileNameMaxLength : Nat := 14

/-- `sizeof(DirEntry)` -/
abbrev direntSize : Nat := 2 + fileNameMaxLength

/-- The stack frame of a directory function around `curr`. -/
structure Frame where
  /-- The bytes of `curr` before it is assigned. -/
  curr : List UInt8
  /-- The bytes after `curr`. -/
  after : List UInt8

/-- `strlen`, or nothing when the bytes have no end. -/
def strlen (bytes : List UInt8) : Option Nat :=
  bytes.findIdx? (· == 0)

/-- `memcmp(s1, s2, n)` from an index on. -/
def memcmp (s1 s2 : List UInt8) : Nat → Nat → Int
  | 0, _ => 0
  | n + 1, index =>
      let c1 := (s1.getD index 0).toNat
      let c2 := (s2.getD index 0).toNat
      if c1 ≠ c2 then (c1 : Int) - c2 else memcmp s1 s2 n (index + 1)

/-- `strncpy(dest, src, n)`: the bytes of `dest`. -/
def strncpy (src : List UInt8) (n : Nat) : List UInt8 :=
  let copied := (src.takeWhile (· != 0)).take n
  copied ++ List.replicate (n - copied.length) 0

/-- `curr.inode_no` -/
def direntInodeNo (curr : List UInt8) : Nat :=
  (InodeEntry.field16 (fun index => curr.getD index 0) 0).toNat

/-- `curr.name` -/
def direntName (curr : List UInt8) : List UInt8 :=
  curr.drop 2

/-- A `DirEntry` as bytes. -/
def dirent (inodeNo : Nat) (name : List UInt8) : List UInt8 :=
  LittleEndian.byte inodeNo 0 :: LittleEndian.byte inodeNo 1 :: name

/-- What is in `curr` after bytes were read into it. -/
def readInto (curr bytes : List UInt8) : List UInt8 :=
  bytes ++ curr.drop bytes.length

/-- `memcmp(name, curr.name, MAX(strlen(name), strlen(curr.name))) == 0` -/
def sameName (name curr after : List UInt8) : Option Bool := do
  let length ← strlen (name ++ [0])
  let currLength ← strlen (direntName curr ++ after)
  return memcmp (name ++ [0]) (direntName curr ++ after)
    (max length currLength) 0 == 0

/-- The values of `i` in a loop over the entries of a directory. -/
def positions (numBytes : Nat) : List Nat :=
  (List.range ((numBytes + direntSize - 1) / direntSize)).map
    (· * direntSize)

section Functions

variable
    (sblock : SuperBlock)
    (console : ConsoleRead)

/-- The loop of `inode_lookup`. -/
def lookupFrom (inode : Inode) (name after : List UInt8) :
    List Nat → List UInt8 → Program Store Stop (Option (Nat × Nat))
  | [], _ => return none
  | position :: rest, curr => do
      let read ← inodeRead sblock console inode position direntSize
      let curr := readInto curr read.2
      if direntInodeNo curr = 0 then
        lookupFrom inode name after rest curr
      else
        match sameName name curr after with
        | none => throw .overrun
        | some true => return some (direntInodeNo curr, position)
        | some false => lookupFrom inode name after rest curr

/-- `inode_lookup(inode, name, index)`: the inode number and `*index`. -/
def inodeLookup (frame : Frame) (inode : Inode) (name : List UInt8) :
    Program Store Stop (Option (Nat × Nat)) := do
  InodeLayer.assert (inode.entry.type == inodeDirectory)
  lookupFrom sblock console inode name frame.after
    (positions inode.entry.numBytes.toNat) frame.curr

/-- The loop of `inode_insert`; nothing when the name is there. -/
def insertFrom (inode : Inode) (name after : List UInt8) :
    List Nat → Nat → List UInt8 → Program Store Stop (Option Nat)
  | [], offset, _ => return some offset
  | position :: rest, offset, curr => do
      let read ← inodeRead sblock console inode position direntSize
      let curr := readInto curr read.2
      if direntInodeNo curr = 0 then
        let offset :=
          if offset = inode.entry.numBytes.toNat then position else offset
        insertFrom inode name after rest offset curr
      else
        match sameName name curr after with
        | none => throw .overrun
        | some true => return none
        | some false => insertFrom inode name after rest offset curr

/-- `inode_insert(ctx, inode, name, inode_no)` -/
def inodeInsert (frame : Frame) (inode : Inode) (name : List UInt8)
    (inodeNo : Nat) : Program Store Stop (Inode × Nat) := do
  InodeLayer.assert (inode.entry.type == inodeDirectory)
  let found ←
    insertFrom sblock console inode name frame.after
      (positions inode.entry.numBytes.toNat) inode.entry.numBytes.toNat
      frame.curr
  match found with
  | none => return (inode, usizeModulus - 1)
  | some offset => do
      let written ←
        inodeWrite sblock inode
          (dirent inodeNo (strncpy name fileNameMaxLength)) offset
      return (written.1, offset)

/-- `inode_remove(ctx, inode, index)` -/
def inodeRemove (frame : Frame) (inode : Inode) (index : Nat) :
    Program Store Stop Inode := do
  let read ← inodeRead sblock console inode index direntSize
  let curr := readInto frame.curr read.2
  let written ← inodeWrite sblock inode (dirent 0 (direntName curr)) index
  return written.1

end Functions

/-! ## Programs which only read -/

/-- The program returns, if at all, with the blocks as they were. -/
def ReadOnly {Value : Type} (program : Program Store Stop Value) : Prop :=
  ∀ store,
    Ensures (fun _ => True) program store fun _ target => target = store

section ReadOnly

variable
    {sblock : SuperBlock}
    {console : ConsoleRead}
    {Value Result : Type}

theorem readOnly_pure
    {value : Value} :
    ReadOnly (pure value) := by
  intro store
  exact ensures_pure.mpr rfl

theorem readOnly_throw
    {stop : Stop} :
    ReadOnly (throw stop : Program Store Stop Value) := by
  intro store
  exact ensures_throw.mpr trivial

theorem ReadOnly.bind
    {program : Program Store Stop Value}
    {next : Value → Program Store Stop Result}
    (first : ReadOnly program)
    (second : ∀ value, ReadOnly (next value)) :
    ReadOnly (program >>= next) := by
  intro store
  rw [ensures_bind]
  refine (first store).mono ?_
  rintro value target rfl
  exact second value target

theorem readOnly_ite
    {condition : Prop}
    [Decidable condition]
    {yes no : Program Store Stop Value}
    (whenTrue : ReadOnly yes)
    (whenFalse : ReadOnly no) :
    ReadOnly (if condition then yes else no) := by
  split_ifs
  · exact whenTrue
  · exact whenFalse

theorem readOnly_assert
    {condition : Bool} :
    ReadOnly (InodeLayer.assert condition) := by
  unfold InodeLayer.assert
  exact readOnly_ite readOnly_pure readOnly_throw

/-- A block is acquired, looked at and released. -/
theorem readOnly_acquire
    {blockNo : Nat}
    {next : BlockData → Program Store Stop Value}
    (reads :
      ∀ data store, blockNo ∈ store.held →
        Ensures (fun _ => True) (next data) store fun _ target =>
          target = { store with held := store.held.erase blockNo }) :
    ReadOnly (acquire blockNo >>= next) := by
  intro store
  rw [ensures_bind]
  by_cases held : blockNo ∈ store.held
  · unfold acquire
    simp [held]
  · refine ensures_acquire held ?_
    refine (reads _ _ List.mem_cons_self).mono ?_
    rintro value target rfl
    simp

theorem readOnly_inodeMap
    {inode : Inode}
    {offset : Nat} :
    ReadOnly (inodeMap sblock false inode offset) := by
  have through :
      ∀ index, ReadOnly (mapThrough sblock false inode index) := by
    intro index
    unfold mapThrough
    refine readOnly_acquire ?_
    intro data store held
    refine ensures_ite (fun _ => ensures_throw.mpr trivial) ?_
    intro _
    refine ensures_ite ?_ ?_
    · intro _
      simp [ensures_release]
    · intro _
      simp [ensures_release]
  unfold inodeMap
  split_ifs with direct empty
  · unfold mapDirect
    exact readOnly_ite readOnly_pure readOnly_pure
  · contradiction
  · exact readOnly_pure
  · exact through _

theorem readOnly_readLoop
    {inode : Inode}
    {finish fuel position : Nat} :
    ReadOnly (readLoop sblock inode finish fuel position) := by
  induction fuel generalizing position with
  | zero => exact readOnly_pure
  | succ fuel ih =>
      unfold readLoop
      refine readOnly_ite ?_ readOnly_pure
      refine readOnly_inodeMap.bind ?_
      intro mapped
      refine readOnly_acquire ?_
      intro data store held
      rw [ensures_bind, ensures_release, ensures_bind]
      refine (ih _).mono ?_
      rintro bytes target rfl
      exact ensures_pure.mpr rfl

theorem readOnly_inodeRead
    {inode : Inode}
    {offset count : Nat} :
    ReadOnly (inodeRead sblock console inode offset count) := by
  unfold inodeRead
  refine readOnly_ite readOnly_pure ?_
  refine readOnly_assert.bind fun _ => ?_
  refine readOnly_assert.bind fun _ => ?_
  refine readOnly_assert.bind fun _ => ?_
  exact readOnly_readLoop.bind fun _ => readOnly_pure

theorem readOnly_insertFrom
    {inode : Inode}
    {name after curr : List UInt8}
    {places : List Nat}
    {offset : Nat} :
    ReadOnly
      (insertFrom sblock console inode name after places offset curr) := by
  induction places generalizing offset curr with
  | nil => exact readOnly_pure
  | cons position rest ih =>
      unfold insertFrom
      refine readOnly_inodeRead.bind ?_
      intro read
      refine readOnly_ite ih ?_
      split
      · exact readOnly_throw
      · exact readOnly_pure
      · exact ih

end ReadOnly

/-! ## What the functions leave -/

/-- An operation on one inode, which stays allocated with its type. -/
structure Operates
    (sblock : SuperBlock)
    (inodeNo : Nat)
    (start finish : View) : Prop where
  owned : Owned sblock finish
  apart : Apart sblock inodeNo start finish
  type : (finish.entry inodeNo).type = (start.entry inodeNo).type
  complete : Complete sblock start → Complete sblock finish

namespace Operates

variable
    {sblock : SuperBlock}
    {inodeNo : Nat}
    {start finish : View}

theorem refl
    (owned : Owned sblock start) :
    Operates sblock inodeNo start start := by
  exact ⟨owned, Apart.refl, rfl, id⟩

theorem allocated_iff
    (operates : Operates sblock inodeNo start finish)
    (other : Nat) :
    Allocated sblock finish other ↔ Allocated sblock start other := by
  by_cases same : other = inodeNo
  · subst same
    unfold Allocated
    rw [operates.type]
  · exact operates.apart.allocated_iff same

theorem of_writes
    {offset last : Nat}
    {src : List UInt8}
    (writes : Writes sblock inodeNo offset last src start finish)
    (inside : offset ≤ fileSize start inodeNo) :
    Operates sblock inodeNo start finish := by
  refine ⟨writes.owned, writes.apart, writes.type, ?_⟩
  intro complete
  refine writes.apart.complete complete ?_
  intro allocated index below
  have before : Allocated sblock start inodeNo := by
    unfold Allocated
    rw [← writes.type]
    exact allocated
  rw [writes.size] at below
  by_cases had : index * blockSize < fileSize start inodeNo
  · exact writes.kept index (complete inodeNo before index had)
  · have filled := writes.filled (index * blockSize) (by omega) (by omega)
    rwa [Nat.mul_div_cancel _ (by decide : 0 < blockSize)] at filled

end Operates

section Specs

variable
    {sblock : SuperBlock}
    {console : ConsoleRead}
    {store : Store}
    {inode : Inode}

/-- What an operation on an inode returns and leaves. -/
def Leaves
    (sblock : SuperBlock)
    (store : Store)
    (inode : Inode)
    (result : Inode)
    (target : Store) : Prop :=
  result =
      { inode with
        entry := (view sblock target.blocks).entry inode.inodeNo } ∧
    target.held = store.held ∧
    Operates sblock inode.inodeNo (view sblock store.blocks)
      (view sblock target.blocks)

theorem leaves_unchanged
    (owned : Owned sblock (view sblock store.blocks))
    (loaded : Loaded sblock (view sblock store.blocks) inode) :
    Leaves sblock store inode inode store := by
  refine ⟨?_, rfl, Operates.refl owned⟩
  rw [← loaded.entry]

/-- `inode_write` works on its inode, whatever it is asked to write. -/
theorem leaves_inodeWrite
    (geometry : Geometry sblock)
    (calm : Calm sblock store)
    (owned : Owned sblock (view sblock store.blocks))
    (loaded : Loaded sblock (view sblock store.blocks) inode)
    (src : List UInt8)
    (offset : Nat) :
    Ensures (fun _ => True) (inodeWrite sblock inode src offset) store
      fun result target => Leaves sblock store inode result.1 target := by
  by_cases device : inode.entry.type = inodeDevice
  · unfold inodeWrite
    rw [if_pos device, ensures_pure]
    exact leaves_unchanged owned loaded
  · refine Ensures.mono
      (ensures_inodeWrite geometry calm owned loaded device
        (fun _ _ => trivial) (Or.inl trivial)) ?_
    rintro result target ⟨-, reloaded, held, inside, -, -, writes⟩
    exact ⟨reloaded, held, Operates.of_writes writes inside⟩

theorem leaves_inodeInsert
    (geometry : Geometry sblock)
    (calm : Calm sblock store)
    (owned : Owned sblock (view sblock store.blocks))
    (loaded : Loaded sblock (view sblock store.blocks) inode)
    (frame : Frame)
    (name : List UInt8)
    (inodeNo : Nat) :
    Ensures (fun _ => True)
      (inodeInsert sblock console frame inode name inodeNo) store
      fun result target => Leaves sblock store inode result.1 target := by
  unfold inodeInsert
  simp only [ensures_bind]
  refine (readOnly_assert store).mono ?_
  rintro _ _ rfl
  refine (readOnly_insertFrom _).mono ?_
  rintro found _ rfl
  cases found with
  | none => exact leaves_unchanged owned loaded
  | some offset =>
      simp only [ensures_bind, ensures_pure]
      exact leaves_inodeWrite geometry calm owned loaded _ _

theorem leaves_inodeRemove
    (geometry : Geometry sblock)
    (calm : Calm sblock store)
    (owned : Owned sblock (view sblock store.blocks))
    (loaded : Loaded sblock (view sblock store.blocks) inode)
    (frame : Frame)
    (index : Nat) :
    Ensures (fun _ => True)
      (inodeRemove sblock console frame inode index) store
      (Leaves sblock store inode) := by
  unfold inodeRemove
  simp only [ensures_bind, ensures_pure]
  refine (readOnly_inodeRead store).mono ?_
  rintro read _ rfl
  exact leaves_inodeWrite geometry calm owned loaded _ _

end Specs

end FudanOS.Fs.Directory
